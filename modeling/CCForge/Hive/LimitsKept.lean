import Mathlib.Logic.Equiv.Basic
import CCForge.Hive.Capacities

/-!
# Limits that travel

`swap` and moves take limits and blocks along together, `splice` takes only blocks that the
destination may have, and `reshape` drops or rebuilds what does not fit its new limits.
-/

namespace CCForge.Hive

open World Effect

variable {α : Type} {env : Env α} {pocma : Bool} {w w' u v : World α} {h other source : HiveId}
  {c d s : ControlId} {S D T : Shape} {b : BlockId} {limits : Limits}

/-- The account of the blocks is kept, and hives only get limits that are allowed. -/
structure KeepsSound (env : Env α) (w w' : World α) : Prop where
  tight : Tight w'
  limits : ∀ y ≠ .rebuilt, (w'.container y).limits = (w.container y).limits ∨
    isWithinHardLimits env (w'.container y).limits

theorem KeepsTight.sound (hk : KeepsTight w w') : KeepsSound env w w' :=
  ⟨hk.tight, fun y _ => .inl (hk.limits y)⟩

theorem KeepsSound.trans (hk : KeepsSound env w u) (hk' : KeepsSound env u v) :
    KeepsSound env w v := by
  refine ⟨hk'.tight, fun y hy => ?_⟩
  obtain he | hl := hk'.limits y hy
  · rw [he]
    exact hk.limits y hy
  · exact .inr hl

theorem KeepsSound.refl (ht : Tight w) : KeepsSound env w w := ⟨ht, fun _ _ => .inl rfl⟩

/-- A hive without a control may get other limits. -/
theorem container_keepsSound {f : Container → Container} (ht : Tight w)
    (hf : (f (w.container h)).control = none)
    (hl : (f (w.container h)).limits = (w.container h).limits ∨
      isWithinHardLimits env (f (w.container h)).limits) :
    KeepsSound env w (w.modifyContainer h f) := by
  refine ⟨(sameBlocks_modifyContainer _).tight ht fun y k hy => ?_, fun y _ => ?_⟩
  · by_cases hyh : y = h
    · subst hyh
      simp [World.modifyContainer, hf] at hy
    · simp only [World.modifyContainer, Function.update_of_ne hyh] at hy ⊢
      exact ht.counted y k hy
  · by_cases hyh : y = h
    · subst hyh
      simp only [World.modifyContainer, Function.update_self]
      exact hl
    · simp only [World.modifyContainer, Function.update_of_ne hyh]
      exact .inl trivial

/-! ## Reshaping in place -/

theorem needsRebuild_eq {fuel : ℕ} {start : Option BlockId} {l : List BlockId}
    (hl : Chain w.activeLinks.next start l) (hf : l.length ≤ fuel) :
    needsRebuild w limits fuel start = false ↔ ∀ b ∈ l, within limits (w.block b).capacity := by
  induction l generalizing start fuel with
  | nil =>
    rw [show start = none from hl]
    cases fuel <;> simp [needsRebuild]
  | cons b l ih =>
    obtain ⟨rfl, hl⟩ := hl
    cases fuel with
    | zero => simp at hf
    | succ k =>
      rw [needsRebuild]
      split
      · next hb =>
        rw [ih hl (by simpa using hf)]
        simp [hb]
      · next hb => simp [hb]

/-- The reserved blocks that are left are within the new limits. -/
theorem dropReserved_within {fuel : ℕ} {l₁ l₂ : List BlockId} (hh : HiveOk w h c S) (ht : Tight w)
    (hres : S.reserved = l₁ ++ l₂) (hf : l₂.length ≤ fuel)
    (hin : ∀ b ∈ l₁, within limits (w.block b).capacity) :
    ∃ S', HiveOk (dropReserved c limits fuel l₁.getLast? w) h c S' ∧ S'.active = S.active ∧
      KeepsTight w (dropReserved c limits fuel l₁.getLast? w) ∧
      (dropReserved c limits fuel l₁.getLast? w).block = w.block ∧
      (dropReserved c limits fuel l₁.getLast? w).container = w.container ∧
      ∀ b ∈ S'.reserved, within limits (w.block b).capacity := by
  induction fuel generalizing w S l₁ l₂ with
  | zero =>
    have hnil : l₂ = [] := List.length_eq_zero_iff.mp (Nat.le_zero.mp hf)
    refine ⟨S, hh, rfl, SameOwners.refl.keeps ht, rfl, rfl, ?_⟩
    rw [hres, hnil, List.append_nil]
    exact hin
  | succ n ih =>
    rw [dropReserved, getLink_eq hh hres]
    cases l₂ with
    | nil =>
      refine ⟨S, hh, rfl, SameOwners.refl.keeps ht, rfl, rfl, ?_⟩
      rw [hres, List.append_nil]
      exact hin
    | cons b l₂ =>
      simp only [List.head?_cons]
      split
      · next hb =>
        have hres' : S.reserved = (l₁ ++ [b]) ++ l₂ := by rw [hres]; simp
        have hrest := ih hh ht hres' (Nat.le_of_succ_le_succ hf) fun x hx => by
          rw [List.mem_append, List.mem_singleton] at hx
          obtain hx | rfl := hx
          · exact hin x hx
          · exact hb
        simpa using hrest
      · have hbS : b ∈ S.reserved := by simp [hres]
        obtain ⟨hok, -⟩ := dropBlock_spec hh hres
        have hk := hh.keepsTight_dropBlock ht hbS l₁.getLast?
        have hcols := dropBlock_columns (w := w) (c := c) (b := b) l₁.getLast?
        have hblock : (setLink w c l₁.getLast? (w.reservedNext b)).block b = w.block b := by
          cases l₁.getLast? <;> rfl
        rw [hblock]
        change ∃ S', HiveOk (dropReserved c limits n l₁.getLast? (dropBlock w c l₁.getLast? b)) h c
          S' ∧ _
        obtain ⟨S', hS', hact, hk', hb', hcont, hin'⟩ := ih hok hk.tight rfl
          (Nat.le_of_succ_le_succ hf) (by rw [hcols.1]; exact hin)
        rw [hcols.1] at hb' hin'
        rw [hcols.2.2.2.2.2.2.2.1] at hcont
        exact ⟨S', hS', hact, hk.trans hk', hb', hcont, hin'⟩

/-- Every block that is left may stay under the new limits. -/
theorem reshapeInPlace_keepsSound (hh : HiveOk w h c S) (hc : (w.container h).control = some c)
    (ht : Tight w) (hl : isWithinHardLimits env limits)
    (hn : needsRebuild w limits w.nextBlock (w.control c).activeHead = false) :
    KeepsSound env w ((dropReserved c limits w.nextBlock none w).modifyContainer h
      ({ · with limits := limits })) := by
  have hL := hh.represents.lists
  have hactive := (needsRebuild_eq hL.active_chain hL.active_length_le).mp hn
  obtain ⟨S', hS', hact, hk, hblock, hcont, hres⟩ :
      ∃ S', HiveOk (dropReserved c limits w.nextBlock none w) h c S' ∧ S'.active = S.active ∧
        KeepsTight w (dropReserved c limits w.nextBlock none w) ∧
        (dropReserved c limits w.nextBlock none w).block = w.block ∧
        (dropReserved c limits w.nextBlock none w).container = w.container ∧
        ∀ b ∈ S'.reserved, within limits (w.block b).capacity :=
    dropReserved_within hh ht (show S.reserved = [] ++ S.reserved from rfl) hL.reserved_length_le
      (by simp)
  generalize dropReserved c limits w.nextBlock none w = u at hS' hk hblock hcont ⊢
  have hcount : Counted u c (u.container h).limits :=
    hk.tight.counted h c (by rw [hcont]; exact hc)
  have hnew : Counted u c limits := by
    refine ⟨fun b hb => ⟨(hcount.blocks b hb).1, ?_⟩, hcount.capacity⟩
    rw [hS'.owned_eq hcount, List.mem_toFinset, Shape.mem_blocks, hS'.settled] at hb
    rw [hblock]
    obtain hb | hb | hb := hb
    · exact hactive b (hact ▸ hb)
    · exact hres b hb
    · exact absurd hb List.not_mem_nil
  refine ⟨(sameBlocks_modifyContainer _).tight hk.tight fun y k hy => ?_, fun y _ => ?_⟩
  · by_cases hyh : y = h
    · subst hyh
      have hkc : k = c := by
        simp only [World.modifyContainer, Function.update_self] at hy
        rw [hcont, hc] at hy
        exact (Option.some.inj hy).symm
      subst hkc
      simp only [World.modifyContainer, Function.update_self]
      exact hnew
    · simp only [World.modifyContainer, Function.update_of_ne hyh] at hy ⊢
      exact hk.tight.counted y k hy
  · by_cases hyh : y = h
    · subst hyh
      simp only [World.modifyContainer, Function.update_self]
      exact .inr hl
    · simp only [World.modifyContainer, Function.update_of_ne hyh]
      exact .inl (by rw [hcont])

/-! ## Swapping and stealing -/

theorem sameBlocks_setOwner (control : Option ControlId) :
    SameBlocks w (setOwner w control h) := by
  cases control with
  | none => exact SameOwners.refl.blocks
  | some k => exact (same_modifyControl (f := ({ · with owner := h })) rfl).blocks

theorem setOwner_container (control : Option ControlId) :
    (setOwner w control h).container = w.container := by
  cases control <;> rfl

theorem swap_blocks (hne : h ≠ other) : SameBlocks w (swap env w h other) := by
  unfold swap
  rw [if_neg hne]
  exact (((((sameBlocks_modifyContainer _).trans (sameBlocks_modifyContainer _)).trans
    (sameBlocks_setOwner _)).trans (sameBlocks_setOwner _)).trans
      same_touchEnd.blocks).trans same_touchEnd.blocks

theorem touchEnd_control (y : HiveId) :
    ((w.touchEnd h).container y).control = (w.container y).control := same_touchEnd.control y

/-- A hive has the control and the limits of the one that it was exchanged with. -/
theorem swap_container (hne : h ≠ other) (y : HiveId) :
    ((swap env w h other).container y).control = (w.container (Equiv.swap h other y)).control ∧
      ((swap env w h other).container y).limits = (w.container (Equiv.swap h other y)).limits := by
  unfold swap
  rw [if_neg hne]
  simp only [touchEnd_control, touchEnd_limits, setOwner_container]
  by_cases hy : y = h
  · subst hy
    rw [Equiv.swap_apply_left]
    simp [World.modifyContainer, hne]
  · by_cases hy' : y = other
    · subst hy'
      rw [Equiv.swap_apply_right]
      simp [World.modifyContainer]
    · rw [Equiv.swap_apply_of_ne_of_ne hy hy']
      simp [World.modifyContainer, hy, hy']

theorem swap_tight (hne : h ≠ other) (ht : Tight w) : Tight (swap env w h other) := by
  refine (swap_blocks hne).tight ht fun y k hy => ?_
  rw [(swap_container hne y).1] at hy
  rw [(swap_container hne y).2]
  exact ht.counted _ k hy

theorem steal_blocks : SameBlocks w (stealFrom w h other) :=
  ((sameBlocks_modifyContainer _).trans (sameBlocks_modifyContainer _)).trans
    (sameBlocks_setOwner _)

/-- The hive has the control and the limits of the other one, which has no control any more. -/
theorem steal_container (hne : h ≠ other) (y : HiveId) :
    (stealFrom w h other).container y =
      if y = h then { w.container h with
        control := (w.container other).control, limits := (w.container other).limits }
      else if y = other then { w.container other with control := none }
      else w.container y := by
  unfold stealFrom
  rw [setOwner_container]
  by_cases hy : y = h
  · subst hy
    simp [World.modifyContainer, hne]
  · by_cases hy' : y = other
    · subst hy'
      simp [World.modifyContainer, hy]
    · simp [World.modifyContainer, hy, hy']

theorem steal_tight (hne : h ≠ other) (ht : Tight w) : Tight (stealFrom w h other) := by
  refine steal_blocks.tight ht fun y k hy => ?_
  rw [steal_container hne] at hy ⊢
  split at hy
  · next hyh =>
    rw [if_pos hyh]
    exact ht.counted other k hy
  · next hyh =>
    split at hy
    · exact absurd hy (by simp)
    · next hyo =>
      rw [if_neg hyh, if_neg hyo]
      exact ht.counted y k hy

/-! ## Splicing -/

theorem totalCapacity_sum {l : List BlockId} (hn : l.Nodup) :
    w.totalCapacity l = ∑ b ∈ l.toFinset, (w.block b).capacity := by
  rw [List.sum_toFinset _ hn]
  rfl

theorem Committed.mem_owned (hc : Committed w w' s d D T) {k : ControlId} :
    b ∈ w'.owned k ↔ b < w.nextBlock ∧
      (if b ∈ T.active then d else w.blockControl b) = k ∧ w.heap (.block b) = true := by
  rw [Hive.mem_owned, hc.nextBlock, hc.blockControl, hc.heap]

theorem Committed.owned_destination (hc : Committed w w' s d D T) (hs : HiveOk w other s T) :
    w'.owned d = w.owned d ∪ T.active.toFinset := by
  ext b
  rw [hc.mem_owned, Finset.mem_union, Hive.mem_owned, List.mem_toFinset]
  by_cases hb : b ∈ T.active
  · have hown := hs.represents.lists.owned b (Shape.mem_blocks.mpr (.inl hb))
    simp [hb, hown.known, hown.heapBlock]
  · simp [hb]

theorem Committed.owned_source (hc : Committed w w' s d D T) (hne : s ≠ d) :
    w'.owned s = w.owned s \ T.active.toFinset := by
  ext b
  rw [hc.mem_owned, Finset.mem_sdiff, Hive.mem_owned, List.mem_toFinset]
  by_cases hb : b ∈ T.active
  · simp [hb, hne.symm]
  · simp [hb]

theorem Committed.owned_other (hc : Committed w w' s d D T) (hs : HiveOk w other s T)
    {k : ControlId} (hks : k ≠ s) (hkd : k ≠ d) : w'.owned k = w.owned k := by
  ext b
  rw [hc.mem_owned, Hive.mem_owned]
  by_cases hb : b ∈ T.active
  · have hown := hs.represents.lists.owned b (Shape.mem_blocks.mpr (.inl hb))
    simp [hb, hown.control, hks.symm, hkd.symm]
  · simp [hb]

/-- The moved blocks count for their new control and not for the old one. -/
theorem Committed.counted (hc : Committed w w' s d D T) (hs : HiveOk w other s T) (hne : s ≠ d)
    {limits limits' : Limits} (hd' : Counted w d limits) (hs' : Counted w s limits')
    (hin : ∀ b ∈ T.active, within limits (w.block b).capacity) :
    Counted w' d limits ∧ Counted w' s limits' := by
  have hL := hs.represents.lists
  have hsub : T.active.toFinset ⊆ w.owned s := by
    intro b hb
    exact hs.mem_owned (Shape.mem_blocks.mpr (.inl (List.mem_toFinset.mp hb)))
  have hdis : Disjoint (w.owned d) T.active.toFinset := by
    rw [Finset.disjoint_left]
    intro b hb hb'
    exact hne ((Hive.mem_owned.mp (hsub hb')).2.1.symm.trans (Hive.mem_owned.mp hb).2.1)
  have htotal := totalCapacity_sum (w := w) hL.active_nodup
  obtain ⟨stamp, hdest⟩ := hc.destination
  refine ⟨⟨fun b hb => ?_, ?_⟩, ⟨fun b hb => ?_, ?_⟩⟩
  · rw [hc.owned_destination hs, Finset.mem_union] at hb
    rw [hc.block]
    obtain hb | hb := hb
    · exact hd'.blocks b hb
    · exact ⟨(hs'.blocks b (hsub hb)).1, hin b (List.mem_toFinset.mp hb)⟩
  · rw [hdest, World.ownedCapacity, hc.owned_destination hs, hc.block,
      Finset.sum_union hdis, ← htotal]
    exact congrArg (· + w.totalCapacity T.active) hd'.capacity
  · rw [hc.owned_source hne, Finset.mem_sdiff] at hb
    rw [hc.block]
    exact hs'.blocks b hb.1
  · have hsum := Finset.sum_sdiff hsub (f := fun b => (w.block b).capacity)
    have hcap : (w.control s).capacity = ∑ b ∈ w.owned s, (w.block b).capacity := hs'.capacity
    rw [hc.source, World.ownedCapacity, hc.owned_source hne, hc.block, htotal]
    change (w.control s).capacity - _ = _
    omega

theorem Committed.tight (hc : Committed w w' s d D T) (hi : Inv w) (ht : Tight w)
    (hd : HiveOk w h d D) (hs : HiveOk w other s T) (hne : s ≠ d)
    (ho : (w.container other).control = some s) (hd' : Counted w d (w.container h).limits)
    (hmine : ∀ y, (w.container y).control = some d → y = h)
    (hin : ∀ b ∈ T.active, within (w.container h).limits (w.block b).capacity) :
    Tight w' ∧ Counted w' d (w'.container h).limits := by
  obtain ⟨hcd, hcs⟩ := hc.counted hs hne hd' (ht.counted other s ho) hin
  rw [hc.container]
  refine ⟨⟨fun y k hy => ?_, fun b hb hheap => ?_, fun a ha => ?_⟩, hcd⟩
  · rw [hc.container] at hy ⊢
    by_cases hkd : k = d
    · subst hkd
      rw [hmine y hy]
      exact hcd
    · by_cases hks : k = s
      · subst hks
        obtain ⟨U, hU⟩ := hi y k hy
        rw [hs.unique hU]
        exact hcs
      · refine (ht.counted y k hy).congr (hc.owned_other hs hks hkd) (fun b _ => ?_) ?_
        · rw [hc.block]
        · rw [hc.control k hks hkd]
  · rw [hc.nextBlock] at hb
    rw [hc.heap] at hheap
    rw [hc.blockControl, hc.nextControl]
    split
    · exact hd.known
    · exact ht.known b hb hheap
  · rw [hc.heap]
    exact ht.noneFresh a (ha.of_le hc.nextBlock.ge hc.nextControl.ge)

/-- All blocks of the control are active, and each one may belong to `h`. -/
theorem migrate_keepsTight (ht : Tight w) (hne : h ≠ other)
    (hs : (w.container other).control = some s) (hT : HiveOk w other s T)
    (hres : (w.control s).reservedHead = none)
    (hin : ∀ b ∈ T.active, within (w.container h).limits (w.block b).capacity) :
    KeepsTight w (((w.modifyContainer h ({ · with control := some s })).modifyContainer other
      ({ · with control := none })).modifyControl s ({ · with owner := h })) := by
  have hcs := ht.counted other s hs
  have hreserved : T.reserved = [] := by
    rw [hT.represents.lists.reserved.chain.head, List.head?_eq_none_iff] at hres
    exact hres
  have hnew : Counted w s (w.container h).limits := by
    refine ⟨fun b hb => ⟨(hcs.blocks b hb).1, ?_⟩, hcs.capacity⟩
    rw [hT.owned_eq hcs, List.mem_toFinset, Shape.mem_blocks, hT.settled, hreserved] at hb
    obtain hb | hb | hb := hb
    · exact hin b hb
    · exact absurd hb List.not_mem_nil
    · exact absurd hb List.not_mem_nil
  have hblocks : SameBlocks w (((w.modifyContainer h ({ · with control := some s })).modifyContainer
      other ({ · with control := none })).modifyControl s ({ · with owner := h })) :=
    ((sameBlocks_modifyContainer _).trans (sameBlocks_modifyContainer _)).trans
      (same_modifyControl rfl).blocks
  refine ⟨hblocks.tight ht fun y k hy => ?_, fun y => ?_⟩
  · rw [migrate_container hne] at hy ⊢
    split at hy
    · exact absurd hy (by simp)
    · next hyo =>
      rw [if_neg hyo]
      split at hy
      · next hyh =>
        rw [if_pos hyh]
        cases hy
        exact hnew
      · next hyh =>
        rw [if_neg hyh]
        exact ht.counted y k hy
  · rw [migrate_container hne]
    split_ifs with hy hy'
    · rw [hy]
    · rw [hy']
    · rfl

theorem attachNewControl_blocks (n : Bool) : SameBlocks w (attachNewControl n h c w) := by
  unfold attachNewControl
  split
  · exact sameBlocks_modifyContainer _
  · exact SameOwners.refl.blocks

theorem attachNewControl_allLimits (n : Bool) (y : HiveId) :
    ((attachNewControl n h c w).container y).limits = (w.container y).limits := by
  by_cases hy : y = h
  · subst hy
    exact attachNewControl_limits n w
  · rw [attachNewControl_other n w hy]

theorem commit_keepsTight (hi : Inv w) (ht : Tight w) (hne : h ≠ other)
    (hs : (w.container other).control = some s) (hT : HiveOk w other s T) (hact : T.active ≠ [])
    (hc : HasControl w u h d D) (hf : ControlFor w u h d)
    (hin : ∀ b ∈ T.active, within (w.container h).limits (w.block b).capacity) :
    KeepsTight w (attachNewControl (w.container h).control.isNone h d
      (spliceCommit u s d (w.totalCapacity T.active))) := by
  have hsd : s ≠ d := fun he => hne (hc.mine other (he ▸ hs)).symm
  have hTu : HiveOk u other s T := hT.of_local hc.silent.loc fun he => he
  obtain ⟨htu, hcount, -, hu, hmine⟩ := hf.counted hi ht
  have hblocks : ∀ x ∈ T.active, u.block x = w.block x := fun x hx => by
    have hown := hT.represents.lists.owned x (Shape.mem_blocks.mpr (.inl hx))
    exact (hc.silent.loc.block x hown.known fun he => he).block
  rw [← totalCapacity_congr hblocks]
  have hcom := spliceCommit_committed hc.ok hTu hsd hact
  rw [← hu] at hs hcount hmine
  obtain ⟨htv, hcv⟩ := hcom.tight (hc.silent.inv hi) htu hc.ok hTu hsd hs hcount hmine
    fun b hb => by
      rw [hblocks b hb, hu]
      exact hin b hb
  have hcontrol := attachNewControl_control (w := w) (h := h) (c := d)
    (spliceCommit u s d (u.totalCapacity T.active)) hc.container (hcom.container.trans hu)
  have hcont := hcom.container
  generalize spliceCommit u s d (u.totalCapacity T.active) = v at htv hcv hcontrol hcont ⊢
  refine ⟨(attachNewControl_blocks _).tight htv fun y k hy => ?_, fun y => ?_⟩
  · rw [attachNewControl_allLimits]
    by_cases hyh : y = h
    · subst hyh
      rw [hcontrol] at hy
      cases hy
      exact hcv
    · rw [attachNewControl_other _ v hyh] at hy
      exact htv.counted y k hy
  · rw [attachNewControl_allLimits, hcont, hu]

/-- `splice` keeps the account of the blocks. -/
theorem splice_keepsTight (hi : Inv w) (ht : Tight w) (hne : h ≠ other) :
    Ends (splice env h other) w (fun _ w' => KeepsTight w w') (fun _ w' => KeepsTight w w') := by
  have htouch : ∀ u, KeepsTight w u → KeepsTight w ((u.touchEnd h).touchEnd other) := fun u hu =>
    hu.trans ((same_touchEnd.trans same_touchEnd).keeps hu.tight)
  have hrefl : KeepsTight w w := SameOwners.refl.keeps ht
  unfold splice
  rw [if_neg hne]
  simp only [ends_bind, ends_get]
  cases hs : (w.container other).control with
  | none =>
    simp only [ends_modify]
    exact htouch w hrefl
  | some s =>
    obtain ⟨T, hT⟩ := hi other s hs
    have hL := hT.represents.lists
    simp only
    split
    · simp only [ends_modify]
      exact htouch w hrefl
    · next hhead =>
      have hact : T.active ≠ [] := by
        rw [hL.active.head] at hhead
        exact fun he => hhead (by rw [he]; rfl)
      cases hcheck : spliceCheck w (w.container h).limits w.nextBlock (w.control s).activeHead 0 with
      | none =>
        simp only [ends_throw]
        exact hrefl
      | some n =>
        obtain ⟨rfl, hin⟩ := spliceCheck_some hL.active_chain hL.active_length_le hcheck
        simp only
        split
        · next hc =>
          simp only [ends_modify]
          exact htouch _ (migrate_keepsTight ht hne hs hT hc.2 hin)
        · simp only [ends_bind, ends_modify]
          refine ((controlOrNew_spec hi).and (controlOrNew_ends ht.noneFresh)).mono ?_
            fun _ _ hu => hu.2.2.undone.keeps hi ht
          rintro d u ⟨⟨D, hc⟩, hfor⟩
          exact htouch _ (commit_keepsTight hi ht hne hs hT hact hc hfor hin)

/-! ## Rebuilding -/

theorem withLocal_tight (ht : Tight w) : Tight (withLocal w h limits) := by
  refine (sameBlocks_modifyContainer _).tight ht fun y k hy => ?_
  by_cases hyr : y = .rebuilt
  · subst hyr
    simp [World.modifyContainer] at hy
  · simp only [World.modifyContainer, Function.update_of_ne hyr] at hy ⊢
    exact ht.counted y k hy

theorem withLocal_container {y : HiveId} (hy : y ≠ .rebuilt) :
    (withLocal w h limits).container y = w.container y :=
  Function.update_of_ne hy _ _

/-- What happens to the local hive does not matter to the limits of the other ones. -/
theorem KeepsTight.of_withLocal (hk : KeepsTight (withLocal w h limits) u) :
    KeepsSound env w u :=
  ⟨hk.tight, fun y hy => .inl (by rw [hk.limits, withLocal_container hy])⟩

/-- The hive gets the new blocks and the new limits together. -/
theorem KeepsTight.swap (hk : KeepsTight (withLocal w h limits) u) (hh : h ≠ .rebuilt)
    (hl : isWithinHardLimits env limits) : KeepsSound env w (Hive.swap env u h .rebuilt) := by
  refine ⟨swap_tight hh hk.tight, fun y hy => ?_⟩
  rw [(swap_container hh y).2, hk.limits]
  by_cases hyh : y = h
  · subst hyh
    rw [Equiv.swap_apply_left, withLocal_limits]
    exact .inr hl
  · rw [Equiv.swap_apply_of_ne_of_ne hyh hy, withLocal_container hy]
    exact .inl rfl

theorem KeepsSound.releaseStorage (hk : KeepsSound env w u) (hi : Inv u) (x : HiveId) :
    KeepsSound env w (u.releaseStorage x) :=
  hk.trans (releaseStorage_keepsTight hi hk.tight).sound

theorem appendMoves_keepsTight (hi : Inv w) (hk : KeepsTight u w) (hne : source ≠ h) :
    Ends (appendMoves env h source) w (fun _ w' => Inv w' ∧ KeepsTight u w')
      (fun _ w' => Inv w' ∧ KeepsTight u w') := by
  refine appendMoves_keeps hne (fun v x hv hkv => ?_) (fun v p x y _ _ hkv => ?_) hi hk
  · exact (emplace_keepsTight hv hkv.tight).mono (fun _ _ hu => hkv.trans hu)
      fun _ _ hu => hkv.trans hu
  · exact hkv.trans ((same_assignAt _).keeps hkv.tight)

theorem rebuild_keepsSound {prepare : HiveM α Unit} (ht : Tight w) (hh : h ≠ .rebuilt)
    (hp : Prepares prepare w h limits)
    (hk : Ends prepare (withLocal w h limits) (fun _ u => KeepsTight (withLocal w h limits) u)
      (fun _ u => KeepsTight (withLocal w h limits) u)) :
    Ends (rebuild env h limits prepare) w (fun _ w' => KeepsSound env w w')
      (fun _ w' => KeepsSound env w w') := by
  have hinv : ∀ u, SameContents (withLocal w h limits) u .rebuilt → Inv u := fun u hu =>
    hu.unchanged.touches.inv
  rw [ends_rebuild]
  split
  · next hl =>
    refine Ends.mono (Ends.and hp hk) ?_ ?_
    · rintro - u ⟨⟨hu, -⟩, hku⟩
      have hmoves : Ends (appendMoves env .rebuilt h) u
          (fun _ v => Inv v ∧ KeepsTight (withLocal w h limits) v)
          (fun _ v => Inv v ∧ KeepsTight (withLocal w h limits) v) :=
        appendMoves_keepsTight (hinv u hu) hku hh
      simp only [appendMoves, ends_bind, ends_get] at hmoves
      refine hmoves.mono (fun _ v hv => ?_) fun _ v hv => ?_
      · exact (hv.2.swap hh hl).releaseStorage (swap_spec hv.1 hh).inv _
      · exact (hv.2.of_withLocal).releaseStorage hv.1 _
    · rintro e u ⟨⟨hu, -⟩, hku⟩
      exact hku.of_withLocal.releaseStorage (hinv u hu) _
  · exact .refl ht

theorem shrinkToFit_keepsSound (hi : Inv w) (hn : NoLocal w) (ht : Tight w) (hh : h ≠ .rebuilt) :
    Ends (shrinkToFit env h) w (fun _ w' => KeepsSound env w w')
      (fun _ w' => KeepsSound env w w') := by
  have htrim := (trimCapacity_spec (h := h) hi).unchanged
  have hk := trimCapacity_keepsTight (h := h) hi ht
  have hn' := htrim.noLocal hh hn
  simp only [shrinkToFit, ends_bind, ends_modify, ends_get]
  generalize w.trimCapacity h = u at htrim hk hn' ⊢
  split
  · exact hk.sound
  · split
    · exact hk.sound
    · next plan hp =>
      split
      · exact hk.sound
      · obtain ⟨hplan, hsize⟩ := planCapacity_spec hp
        rw [Nat.zero_add] at hsize
        have hiu := htrim.touches.inv
        have hmax : plan.blockMax ≤ (u.container h).limits.max := by
          rw [planCapacity_blockMax hp]
          exact allocationBlockMax_limits
        refine (rebuild_keepsSound hk.tight hh (PlanOk.prepares hiu hn' hplan hsize) ?_).mono
          (fun _ _ hv => hk.sound.trans hv) fun _ _ hv => hk.sound.trans hv
        exact (PlanOk.local hplan).keepsTight (withLocal_inv hiu hn') (withLocal_tight hk.tight)
          (by rw [withLocal_limits]; exact hmax)

theorem reshape_keepsSound (hi : Inv w) (hn : NoLocal w) (ht : Tight w) (hh : h ≠ .rebuilt) :
    Ends (reshape env h limits) w (fun _ w' => KeepsSound env w w')
      (fun _ w' => KeepsSound env w w') := by
  unfold reshape validateLimits
  simp only [ends_bind]
  split
  · next hl =>
    simp only [ends_pure, ends_get]
    cases hc : (w.container h).control with
    | none =>
      simp only [ends_modify]
      exact container_keepsSound ht hc (.inr hl)
    | some c =>
      simp only
      split
      · exact rebuild_keepsSound ht hh (reserve_spec (withLocal_inv hi hn) _)
          (reserve_keepsTight (withLocal_inv hi hn) (withLocal_tight ht) _)
      · next hr =>
        obtain ⟨S, hS⟩ := hi h c hc
        simp only [ends_modify]
        exact reshapeInPlace_keepsSound hS hc ht hl (by simpa using hr)
  · simp only [ends_throw]
    exact .refl ht

/-! ## Moving -/

theorem defaults_ordered (maximum : ℕ) :
    (if maximum < 1 then maximum else 1) ≤ (if maximum < 8 then maximum else 8) ∧
      (if maximum < 8 then maximum else 8) ≤ (if maximum < 4096 then maximum else 4096) ∧
      (if maximum < 4096 then maximum else 4096) ≤ maximum := by
  refine ⟨?_, ?_, ?_⟩
  · split_ifs <;> omega
  · split_ifs <;> omega
  · split_ifs <;> omega

theorem blockCapacityDefaultLimits_hard :
    isWithinHardLimits env (blockCapacityDefaultLimits env) := by
  unfold isWithinHardLimits
  exact decide_eq_true (defaults_ordered (min env.staticMaxSize slotNpos))

theorem construct_keepsSound (hi : Inv w) (ht : Tight w) (alloc : Allocator) :
    KeepsSound env w (construct w h alloc (blockCapacityDefaultLimits env)) :=
  (releaseStorage_keepsTight hi ht).sound.trans
    (container_keepsSound (releaseStorage_keepsTight hi ht).tight rfl
      (.inr blockCapacityDefaultLimits_hard))

/-- Every hive has limits that its blocks are allowed to have. -/
def Legal (env : Env α) (w : World α) : Prop :=
  ∀ y ≠ .rebuilt, isWithinHardLimits env (w.container y).limits

theorem KeepsSound.legal (hk : KeepsSound env w w') (hl : Legal env w) : Legal env w' := by
  intro y hy
  obtain he | hl' := hk.limits y hy
  · rw [he]
    exact hl y hy
  · exact hl'

theorem steal_keepsSound (ht : Tight w) (hl : Legal env w) (hne : h ≠ other)
    (hr : other ≠ .rebuilt) :
    KeepsSound env w (((stealFrom w h other).touchEnd h).touchEnd other) := by
  have hs : KeepsSound env w (stealFrom w h other) := by
    refine ⟨steal_tight hne ht, fun y _ => ?_⟩
    rw [steal_container hne]
    split_ifs with hy hy'
    · exact .inr (hl other hr)
    · exact .inl (by rw [hy'])
    · exact .inl rfl
  exact hs.trans ((same_touchEnd.trans same_touchEnd).keeps hs.tight).sound

theorem moveConstruct_keepsSound (hi : Inv w) (ht : Tight w) (hl : Legal env w) (hne : h ≠ other)
    (hr : other ≠ .rebuilt) : KeepsSound env w (moveConstruct env w h other) := by
  have hnew : KeepsSound env w (construct w h (w.container other).alloc
      (blockCapacityDefaultLimits env)) := construct_keepsSound hi ht _
  exact hnew.trans (steal_keepsSound hnew.tight (hnew.legal hl) hne hr)

theorem moveConstructWith_keepsSound (hi : Inv w) (ht : Tight w) (hl : Legal env w)
    (hne : h ≠ other) (hr : other ≠ .rebuilt) (alloc : Allocator) (equal : Bool) :
    Ends (moveConstructWith env h other alloc equal) w (fun _ w' => KeepsSound env w w')
      (fun _ w' => KeepsSound env w w') := by
  have hnew : KeepsSound env w (construct w h alloc (blockCapacityDefaultLimits env)) :=
    construct_keepsSound hi ht alloc
  have hinv : Inv (construct w h alloc (blockCapacityDefaultLimits env)) :=
    (releaseStorage_modify hi fun _ _ => rfl).1.inv
  simp only [moveConstructWith, ends_bind, ends_modify]
  generalize construct w h alloc (blockCapacityDefaultLimits env) = u at hnew hinv ⊢
  split
  · simp only [ends_modify]
    exact hnew.trans (steal_keepsSound hnew.tight (hnew.legal hl) hne hr)
  · simp only [ends_bind, ends_tryCatch, ends_modify, ends_throw]
    refine (appendMoves_keepsTight hinv (SameOwners.refl.keeps hnew.tight) (Ne.symm hne)).mono
      (fun _ v hv => ?_) fun _ v hv => ?_
    · exact hnew.trans (hv.2.trans (same_clear.keeps hv.2.tight)).sound
    · exact (hnew.trans hv.2.sound).releaseStorage hv.1 _

theorem moveAssign_keepsSound (hi : Inv w) (ht : Tight w) (hl : Legal env w)
    (hr : other ≠ .rebuilt) (equal : Bool) :
    Ends (moveAssign env pocma h other equal) w (fun _ w' => KeepsSound env w w')
      (fun _ w' => KeepsSound env w w') := by
  simp only [moveAssign]
  split
  · exact .refl ht
  · next hne =>
    split
    · simp only [ends_modify]
      have hrel : KeepsSound env w (w.releaseStorage h) := (releaseStorage_keepsTight hi ht).sound
      have hset := (same_modifyContainer (w := w.releaseStorage h) (h := h) (f := fun k =>
        { k with alloc := if pocma then ((w.releaseStorage h).container other).alloc
          else k.alloc }) rfl rfl).keeps hrel.tight
      have hboth := hrel.trans hset.sound
      exact hboth.trans (steal_keepsSound hboth.tight (hboth.legal hl) hne hr)
    · simp only [ends_bind, ends_get, ends_tryCatch, ends_modify, ends_throw]
      have hc : KeepsTight w (w.clearWithoutEndInvalidation h) :=
        same_clearWithoutEndInvalidation.keeps ht
      refine (appendMoves_keepsTight (clearWithoutEndInvalidation_spec hi).1.inv hc
        (Ne.symm hne)).mono (fun _ v hv => ?_) fun _ v hv => ?_
      · have hclear : KeepsTight w (v.clear other) := hv.2.trans (same_clear.keeps hv.2.tight)
        exact (hclear.trans ((same_modifyContainer rfl rfl).keeps hclear.tight)).sound
      · exact (hv.2.trans ((same_modifyContainer rfl rfl).keeps hv.2.tight)).sound

/-! ## Every action keeps the account -/

/-- What is true between two actions. -/
structure Sound (env : Env α) (w : World α) : Prop where
  settled : Settled w
  tight : Tight w
  legal : Legal env w

theorem call_keepsSound {a : Call α} (hs : Settled w) (ht : Tight w) (hl : Legal env w) :
    KeepsSound env w (after (a.perform env) w) := by
  have hi := hs.inv
  have hnamed : ∀ n : ℕ, HiveId.named n ≠ .rebuilt := fun n => by simp
  cases a with
  | emplace h v =>
    refine Ends.of_both (P := KeepsSound env w) ?_
    simp only [Call.perform, ends_bind, ends_pure]
    exact (emplace_keepsTight hi ht).mono (fun _ _ hk => hk.sound) fun _ _ hk => hk.sound
  | erase h position => exact ((same_erase position).keeps ht).sound
  | eraseRange h first last => exact ((same_eraseRange first last).keeps ht).sound
  | reserve h n =>
    refine Ends.of_both (P := KeepsSound env w) ?_
    simp only [Call.perform, ends_bind, ends_pure]
    exact (reserve_keepsTight hi ht n).mono (fun _ _ hk => hk.sound) fun _ _ hk => hk.sound
  | trimCapacity h => exact (trimCapacity_keepsTight hi ht).sound
  | trimCapacityTo h n => exact (trimCapacityTo_keepsTight hi ht n).sound
  | clear h => exact (same_clear.keeps ht).sound
  | assign h values =>
    refine Ends.of_both (P := KeepsSound env w) ?_
    simp only [Call.perform, ends_bind, ends_pure]
    exact (assign_keepsTight hi ht).mono (fun _ _ hk => hk.sound) fun _ _ hk => hk.sound
  | reshape h limits =>
    refine Ends.of_both (P := KeepsSound env w) ?_
    simp only [Call.perform, ends_bind, ends_pure]
    exact reshape_keepsSound hi hs.noLocal ht (hnamed h)
  | shrinkToFit h =>
    refine Ends.of_both (P := KeepsSound env w) ?_
    simp only [Call.perform, ends_bind, ends_pure]
    exact shrinkToFit_keepsSound hi hs.noLocal ht (hnamed h)
  | swap h other =>
    change KeepsSound env w (Hive.swap env w (.named h) (.named other))
    by_cases hne : HiveId.named h = .named other
    · rw [Hive.swap, if_pos hne]
      exact .refl ht
    · refine ⟨swap_tight hne ht, fun y hy => .inr ?_⟩
      rw [(swap_container hne y).2]
      apply hl
      rw [Equiv.swap_apply_def]
      split_ifs
      · exact hnamed other
      · exact hnamed h
      · exact hy
  | splice h source =>
    refine Ends.of_both (P := KeepsSound env w) ?_
    simp only [Call.perform, ends_bind, ends_pure]
    by_cases hne : HiveId.named h = .named source
    · rw [Hive.splice, if_pos hne]
      exact .refl ht
    · exact (splice_keepsTight hi ht hne).mono (fun _ _ hk => hk.sound) fun _ _ hk => hk.sound

theorem perform_keepsSound {a : Action α} (hs : Sound env w) (hv : a.valid w) :
    KeepsSound env w (after (a.perform env pocma) w) := by
  have hi := hs.settled.inv
  have hnamed : ∀ n : ℕ, HiveId.named n ≠ .rebuilt := fun n => by simp
  cases a with
  | call c => exact call_keepsSound hs.settled hs.tight hs.legal
  | moveConstruct n m =>
    have hne : n ≠ m := by simpa [Action.valid] using hv
    exact moveConstruct_keepsSound hi hs.tight hs.legal (by simpa using hne) (hnamed m)
  | moveConstructWith n m alloc equal =>
    have hne : n ≠ m := by simpa [Action.valid] using hv
    refine Ends.of_both (P := KeepsSound env w) ?_
    simp only [Action.perform, ends_bind, ends_pure]
    exact moveConstructWith_keepsSound hi hs.tight hs.legal (by simpa using hne) (hnamed m) alloc
      equal
  | moveAssign n m equal =>
    refine Ends.of_both (P := KeepsSound env w) ?_
    simp only [Action.perform, ends_bind, ends_pure]
    exact moveAssign_keepsSound hi hs.tight hs.legal (hnamed m) equal

theorem act_sound {a : Action α} (hs : Sound env w) (h : act env pocma w a = some w') :
    Sound env w' := by
  unfold act at h
  split at h
  · next hv =>
    cases h
    have hk : KeepsSound env w (after (a.perform env pocma) w) := perform_keepsSound hs hv
    exact ⟨perform_settled hs.settled hv, hk.tight, hk.legal hs.legal⟩
  · exact absurd h (by simp)

theorem Blank.sound (hb : Blank env w) : Sound env w := by
  refine ⟨hb.start.settled, ⟨fun h c hc => ?_, fun b _ hb' => ?_, fun a _ => hb.heap a⟩,
    fun y hy => ?_⟩
  · exact absurd ((hb.start.empty h).symm.trans hc) (by simp)
  · exact absurd ((hb.heap (.block b)).symm.trans hb') (by simp)
  · cases y with
    | named n => exact hb.start.limits n
    | rebuilt => exact absurd rfl hy

/-- After any actions of a program, all blocks are accounted for and within their limits. -/
theorem reachable_sound (h : Reachable (act env pocma) (Blank env) w) : Sound env w :=
  h.preserves (fun _ hb => hb.sound) fun _ _ _ => act_sound

end CCForge.Hive
