import CCForge.Hive.LimitsKept
import CCForge.Hive.TestInvariants

/-!
# Splicing

`splice` either moves all active blocks behind those of the destination, or throws before it
has changed anything.
-/

namespace CCForge.Hive

open World Effect

variable {α : Type} {env : Env α} {w w' u v : World α} {h other : HiveId} {c d s : ControlId}
  {S D T : Shape}

/-- The reserved blocks of a hive. -/
def World.reservedBlocks (w : World α) (h : HiveId) : List BlockId :=
  match (w.container h).control with
  | none => []
  | some c => walk w.reservedNext w.nextBlock (w.control c).reservedHead

/-- The total capacity of the active blocks of a hive. -/
def World.activeCapacity (w : World α) (h : HiveId) : ℕ := w.totalCapacity (w.activeBlocks h)

/-- All active blocks of `other` may belong to `h`. -/
def World.Fits (w : World α) (h other : HiveId) : Prop :=
  ∀ b ∈ w.activeBlocks other, within (w.container h).limits (w.block b).capacity

/-- The control of `other` has to stay, so that `h` needs one of its own. -/
def World.NeedsControl (w : World α) (h other : HiveId) : Prop :=
  w.activeBlocks other ≠ [] ∧ w.reservedBlocks other ≠ [] ∧ (w.container h).control = none

/-- The allocation or the construction of the next control throws. -/
def ControlFails (env : Env α) (w : World α) : Prop :=
  env.throws w.calls ∨ env.throws (w.calls + 1)

/-- The blocks and elements of `other` are behind those of `h`. -/
structure Spliced (w w' : World α) (h other : HiveId) : Prop where
  inv : Inv w'
  elements : w'.elements h = w.elements h ++ w.elements other
  empty : w'.elements other = [] ∧ w'.activeBlocks other = []
  reserved : ∀ x, w'.reservedBlocks x = w.reservedBlocks x
  size : w'.size h = w.size h + w.size other ∧ w'.size other = 0
  capacity : w'.capacity h = w.capacity h + w.activeCapacity other ∧
    w.capacity other = w'.capacity other + w.activeCapacity other
  others : ∀ x, x ≠ h → x ≠ other →
    w'.elements x = w.elements x ∧ w'.container x = w.container x
  limits : ∀ x, (w'.container x).limits = (w.container x).limits

/-! ## The allocation of the control -/

theorem controlOrNew_fails : Ends (controlOrNew env h) w
    (fun _ _ => (w.container h).control = none → ¬ControlFails env w)
    (fun _ _ => (w.container h).control = none ∧ ControlFails env w) := by
  simp only [controlOrNew, ends_bind, ends_get]
  cases hc : (w.container h).control with
  | some c =>
    simp only [ends_pure]
    intro hn
    exact absurd hn (by simp)
  | none =>
    simp only [allocateControl, ends_bind, ends_get, ends_allocate, ends_tryCatch, ends_mayThrow,
      ends_modify, ends_throw, ends_pure]
    split
    · next ht => exact ⟨trivial, .inl ht⟩
    · next ht =>
      split
      · next ht' => exact ⟨trivial, .inr ht'⟩
      · next ht' =>
        rintro - (hf | hf)
        · exact ht hf
        · exact ht' hf

/-! ## The parts of the claim -/

theorem reservedBlocks_congr (hc : (w'.container h).control = (w.container h).control)
    (hn : w'.reservedNext = w.reservedNext) (hb : w'.nextBlock = w.nextBlock)
    (hr : ∀ c, (w.container h).control = some c →
      (w'.control c).reservedHead = (w.control c).reservedHead) :
    w'.reservedBlocks h = w.reservedBlocks h := by
  unfold World.reservedBlocks
  rw [hc, hn, hb]
  cases hk : (w.container h).control with
  | none => rfl
  | some c => simp only [hr c hk]

theorem World.HiveOk.reservedBlocks (hh : HiveOk w h c S) (hc : (w.container h).control = some c) :
    w.reservedBlocks h = S.reserved := by
  unfold World.reservedBlocks
  rw [hc]
  exact walk_eq hh.represents.lists.reserved.chain hh.represents.lists.reserved_length_le

/-- The sizes follow from the elements. -/
theorem Absorbed.sizes (ha : Absorbed w w' h other) (hi : Inv w) :
    w'.size h = w.size h + w.size other ∧ w'.size other = 0 := by
  rw [ha.inv.size_eq, ha.inv.size_eq, hi.size_eq, hi.size_eq, ha.left, ha.right, List.length_append]
  exact ⟨rfl, rfl⟩

/-- What is left to show of a hive that has absorbed another one. -/
structure Accounted (w w' : World α) (h other : HiveId) : Prop where
  empty : w'.activeBlocks other = []
  reserved : ∀ x, w'.reservedBlocks x = w.reservedBlocks x
  left : w'.capacity h = w.capacity h + w.activeCapacity other
  right : w.capacity other = w'.capacity other + w.activeCapacity other

theorem Absorbed.spliced (ha : Absorbed w w' h other) (hi : Inv w) (hc : Accounted w w' h other) :
    Spliced w w' h other :=
  ⟨ha.inv, ha.left, ⟨ha.right, hc.empty⟩, hc.reserved, ha.sizes hi, ⟨hc.left, hc.right⟩,
    fun x hx hx' => ⟨ha.elements x hx hx', ha.container x hx hx'⟩, ha.limits⟩

/-- The end epochs do not count. -/
theorem Accounted.touchEnds (hc : Accounted w u h other) :
    Accounted w ((u.touchEnd h).touchEnd other) h other := by
  have hcontrol : ∀ x, (((u.touchEnd h).touchEnd other).container x).control =
      (u.container x).control := fun x => by rw [touchEnd_control, touchEnd_control]
  have hactive : ((u.touchEnd h).touchEnd other).activeBlocks other = u.activeBlocks other := by
    unfold World.activeBlocks
    rw [hcontrol]
    rfl
  have hcapacity : ∀ x, ((u.touchEnd h).touchEnd other).capacity x = u.capacity x := by
    intro x
    unfold World.capacity
    rw [hcontrol]
    rfl
  refine ⟨hactive.trans hc.empty, fun x => ?_, (hcapacity h).trans hc.left, ?_⟩
  · exact (reservedBlocks_congr (hcontrol x) rfl rfl fun _ _ => rfl).trans (hc.reserved x)
  · rw [hcapacity]
    exact hc.right

theorem accounted_nothing (he : w.activeBlocks other = []) : Accounted w w h other := by
  have hz : w.activeCapacity other = 0 := by
    unfold World.activeCapacity
    rw [he]
    rfl
  exact ⟨he, fun _ => rfl, by rw [hz]; rfl, by rw [hz]; rfl⟩

/-- The whole control has gone over to `h`. -/
theorem migrate_accounted (hi : Inv w) (hne : h ≠ other) (hh : (w.container h).control = none)
    (hs : (w.container other).control = some s) (hres : (w.control s).reservedHead = none) :
    Accounted w (((w.modifyContainer h ({ · with control := some s })).modifyContainer other
      ({ · with control := none })).modifyControl s ({ · with owner := h })) h other := by
  obtain ⟨T, hT⟩ := hi other s hs
  have hreserved : T.reserved = [] := by
    rw [hT.represents.lists.reserved.chain.head, List.head?_eq_none_iff] at hres
    exact hres
  have htotal : w.activeCapacity other = (w.control s).capacity := by
    have hcap := hT.represents.capacity
    rw [World.activeCapacity, hT.activeBlocks hs, hcap, Shape.blocks, hreserved, hT.settled,
      List.append_nil, List.append_nil]
  have hcont := fun x => migrate_container (w := w) (s := s) hne x
  have hfields : ∀ k, ((((w.modifyContainer h ({ · with control := some s })).modifyContainer other
      ({ · with control := none })).modifyControl s ({ · with owner := h })).control k).capacity =
      (w.control k).capacity := fun k => (same_modifyControl rfl).blocks.total k
  have hhead : ((((w.modifyContainer h ({ · with control := some s })).modifyContainer other
      ({ · with control := none })).modifyControl s ({ · with owner := h })).control s).reservedHead
      = none := by
    rw [modifyControl_self]
    exact hres
  have hothers : ∀ x, x ≠ h → x ≠ other → ∀ k, (w.container x).control = some k →
      ((((w.modifyContainer h ({ · with control := some s })).modifyContainer other
        ({ · with control := none })).modifyControl s ({ · with owner := h })).control k) =
        w.control k := by
    intro x hx hx' k hk
    obtain ⟨U, hU⟩ := hi x k hk
    have hks : k ≠ s := fun he => hx' (hT.unique (he ▸ hU))
    exact modifyControl_other _ hks
  have hnext : (((w.modifyContainer h ({ · with control := some s })).modifyContainer other
      ({ · with control := none })).modifyControl s ({ · with owner := h })).reservedNext =
      w.reservedNext := rfl
  have hblocks : (((w.modifyContainer h ({ · with control := some s })).modifyContainer other
      ({ · with control := none })).modifyControl s ({ · with owner := h })).nextBlock =
      w.nextBlock := rfl
  generalize ((w.modifyContainer h ({ · with control := some s })).modifyContainer other
    ({ · with control := none })).modifyControl s ({ · with owner := h }) = w'
    at hcont hfields hhead hothers hnext hblocks ⊢
  have hleft : (w'.container h).control = some s := by
    rw [hcont, if_neg hne, if_pos rfl]
  have hright : (w'.container other).control = none := by
    rw [hcont, if_pos rfl]
  refine ⟨?_, fun x => ?_, ?_, ?_⟩
  · unfold World.activeBlocks
    rw [hright]
  · by_cases hx : x = h
    · subst hx
      unfold World.reservedBlocks
      rw [hleft, hh]
      simp only [hhead]
      cases w'.nextBlock <;> rfl
    · by_cases hx' : x = other
      · subst hx'
        rw [hT.reservedBlocks hs, hreserved]
        unfold World.reservedBlocks
        rw [hright]
      · refine reservedBlocks_congr ?_ hnext hblocks fun k hk => ?_
        · rw [hcont, if_neg hx', if_neg hx]
        · rw [hothers x hx hx' k hk]
  · unfold World.capacity
    rw [hleft, hh, htotal]
    simp only [hfields, Nat.zero_add]
  · unfold World.capacity
    rw [hright, hs, htotal]
    simp only [Nat.zero_add]

theorem attachNewControl_others (n : Bool) (t : World α) :
    (attachNewControl n h c t).activeLinks = t.activeLinks ∧
      (attachNewControl n h c t).reservedNext = t.reservedNext := by
  unfold attachNewControl
  split
  · exact ⟨rfl, rfl⟩
  · exact ⟨rfl, rfl⟩

theorem ControlFor.reserved (hf : ControlFor w u h d) :
    u.reservedNext = w.reservedNext ∧ u.nextBlock = w.nextBlock ∧ u.container = w.container ∧
      (∀ k < w.nextControl, u.control k = w.control k) ∧
      ((w.container h).control = none → (u.control d).reservedHead = none) := by
  obtain ⟨hc, rfl⟩ | ⟨-, rfl, rfl⟩ := hf
  · exact ⟨rfl, rfl, rfl, fun _ _ => rfl, fun hn => absurd (hc.symm.trans hn) (by simp)⟩
  · have hnew : NewControl w (withControl w h) h := newControl_withControl
    refine ⟨hnew.reservedNext, hnew.nextBlock, hnew.container, fun k hk => ?_, fun _ => ?_⟩
    · rw [hnew.control, Function.update_of_ne (Nat.ne_of_lt hk)]
    · rw [hnew.control, Function.update_self]

/-- The active blocks have gone over to the control of `h`. -/
theorem commit_accounted (hi : Inv w) (hne : h ≠ other)
    (hs : (w.container other).control = some s) (hT : HiveOk w other s T) (hact : T.active ≠ [])
    (hc : HasControl w u h d D) (hf : ControlFor w u h d) :
    Accounted w (attachNewControl (w.container h).control.isNone h d
      (spliceCommit u s d (w.totalCapacity T.active))) h other := by
  have hsd : s ≠ d := fun he => hne (hc.mine other (he ▸ hs)).symm
  have hTu : HiveOk u other s T := hT.of_local hc.silent.loc fun he => he
  obtain ⟨hun, hub, hu, huk, hnew⟩ := hf.reserved
  -- Taking a control for `h` leaves the blocks of `other` alone.
  have hblocks : ∀ x ∈ T.active, u.block x = w.block x := fun x hx => by
    have hown := hT.represents.lists.owned x (Shape.mem_blocks.mpr (.inl hx))
    exact (hc.silent.loc.block x hown.known fun he => he).block
  have htotal : w.activeCapacity other = w.totalCapacity T.active := by
    rw [World.activeCapacity, hT.activeBlocks hs]
  have hle : w.totalCapacity T.active ≤ (w.control s).capacity := by
    rw [hT.represents.capacity, Shape.blocks, totalCapacity_append, totalCapacity_append]
    omega
  have hcom := spliceCommit_committed hc.ok hTu hsd hact
  rw [totalCapacity_congr hblocks] at hcom
  have hcontrol := attachNewControl_control (w := w) (h := h) (c := d)
    (spliceCommit u s d (w.totalCapacity T.active)) hc.container (hcom.container.trans hu)
  generalize spliceCommit u s d (w.totalCapacity T.active) = v at hcom hcontrol ⊢
  have hcont : ∀ x, x ≠ h → (attachNewControl (w.container h).control.isNone h d v).container x =
      w.container x := fun x hx => by
    rw [attachNewControl_other _ v hx, hcom.container, hu]
  obtain ⟨-, -, -, hvb, -, hvk⟩ :=
    attachNewControl_columns (h := h) (c := d) (w.container h).control.isNone v
  obtain ⟨-, hvn⟩ := attachNewControl_others (h := h) (c := d) (w.container h).control.isNone v
  generalize attachNewControl (w.container h).control.isNone h d v = v'
    at hcontrol hcont hvb hvk hvn ⊢
  obtain ⟨stamp, hdest⟩ := hcom.destination
  have hsrc := hcom.source
  have hright : (v'.container other).control = some s := by
    rw [hcont other hne.symm, hs]
  have hnext : v'.reservedNext = w.reservedNext := by
    rw [hvn, hcom.reservedNext, hun]
  have hnb : v'.nextBlock = w.nextBlock := by
    rw [hvb, hcom.nextBlock, hub]
  have hold : u.control s = w.control s := huk s hT.known
  refine ⟨?_, fun x => ?_, ?_, ?_⟩
  · unfold World.activeBlocks
    rw [hright]
    simp only [hvk, hsrc]
    cases v'.nextBlock <;> rfl
  · by_cases hx : x = h
    · subst hx
      cases hk : (w.container x).control with
      | none =>
        have hhead : (v'.control d).reservedHead = none := by
          rw [hvk, hdest]
          exact hnew hk
        unfold World.reservedBlocks
        rw [hcontrol, hk]
        simp only [hhead]
        cases v'.nextBlock <;> rfl
      | some k =>
        have hkd : k = d := hf.known hk
        subst hkd
        refine reservedBlocks_congr (hcontrol.trans hk.symm) hnext hnb fun k' hk' => ?_
        rw [hk] at hk'
        cases hk'
        obtain ⟨U, hU⟩ := hi x k hk
        rw [hvk, hdest, ← huk k hU.known]
    · refine reservedBlocks_congr (by rw [hcont x hx]) hnext hnb fun k hk => ?_
      -- Only the controls `s` and `d` change, and neither changes its reserved list here.
      have hkd : k ≠ d := fun he => hx (hc.mine x (he ▸ hk))
      obtain ⟨U, hU⟩ := hi x k hk
      by_cases hks : k = s
      · subst hks
        rw [hvk, hsrc, hold]
      · rw [hvk, hcom.control k hks hkd, huk k hU.known]
  · have hcap : v'.capacity h = (v'.control d).capacity := by
      unfold World.capacity
      rw [hcontrol]
    rw [hcap, hvk, hdest, htotal, ← hc.capacity]
    exact congrArg ((u.control d).capacity + ·) (totalCapacity_congr hblocks)
  · unfold World.capacity
    rw [hright, hs, htotal]
    simp only [hvk, hsrc, hold]
    rw [totalCapacity_congr hblocks]
    omega

/-! ## What `splice` does -/

theorem World.HiveOk.fits_iff (hT : HiveOk w other s T)
    (hs : (w.container other).control = some s) :
    w.Fits h other ↔ ∀ b ∈ T.active, within (w.container h).limits (w.block b).capacity := by
  unfold World.Fits
  rw [hT.activeBlocks hs]

/-- `splice` throws if a block does not fit or the allocation of a control fails, and then
nothing has changed. Otherwise it moves all active blocks. -/
theorem splice_exact (hi : Inv w) (hf : NoneFresh w) (hne : h ≠ other) :
    Ends (splice env h other) w
      (fun _ w' => w.Fits h other ∧ ¬(w.NeedsControl h other ∧ ControlFails env w) ∧
        Spliced w w' h other)
      (fun e w' => Unaltered w w' ∧
        (¬w.Fits h other ∧ e = .lengthError "std::hive::splice block outside current limits" ∨
          w.Fits h other ∧ w.NeedsControl h other ∧ ControlFails env w ∧ e ≠ .element)) := by
  have hspec : Ends (splice env h other) w (fun _ w' => Absorbed w w' h other)
      (fun _ w' => Silent w w') := splice_spec hi hne
  unfold splice at hspec ⊢
  rw [if_neg hne] at hspec ⊢
  simp only [ends_bind, ends_get] at hspec ⊢
  -- Without an active block the call does nothing, whether `other` has a control or not.
  have hnothing : w.activeBlocks other = [] → Absorbed w ((w.touchEnd h).touchEnd other) h other →
      w.Fits h other ∧ ¬(w.NeedsControl h other ∧ ControlFails env w) ∧
        Spliced w ((w.touchEnd h).touchEnd other) h other := by
    intro he ha
    refine ⟨fun b hb => ?_, fun hn => hn.1.1 he, ha.spliced hi (accounted_nothing he).touchEnds⟩
    rw [he] at hb
    exact absurd hb List.not_mem_nil
  cases hs : (w.container other).control with
  | none =>
    simp only [hs, ends_modify] at hspec ⊢
    refine hnothing ?_ hspec
    unfold World.activeBlocks
    rw [hs]
  | some s =>
    obtain ⟨T, hT⟩ := hi other s hs
    have hL := hT.represents.lists
    simp only [hs] at hspec ⊢
    split
    · next hhead =>
      have hact : T.active = [] := by
        rw [hL.active.head] at hhead
        exact List.head?_eq_none_iff.mp hhead
      simp only [hhead, if_true, ends_modify] at hspec ⊢
      exact hnothing ((hT.activeBlocks hs).trans hact) hspec
    · next hhead =>
      -- The blocks are checked before anything is written.
      have hact : T.active ≠ [] := by
        rw [hL.active.head] at hhead
        exact fun he => hhead (by rw [he]; rfl)
      have hfits := hT.fits_iff (h := h) hs
      rw [if_neg hhead] at hspec
      cases hcheck : spliceCheck w (w.container h).limits w.nextBlock (w.control s).activeHead 0 with
      | none =>
        rw [spliceCheck_eq hL.active_chain hL.active_length_le] at hcheck
        simp only [ends_throw]
        refine ⟨.refl, .inl ⟨fun hall => ?_, trivial⟩⟩
        rw [if_pos (hfits.mp hall)] at hcheck
        exact absurd hcheck (by simp)
      | some n =>
        obtain ⟨rfl, hin⟩ := spliceCheck_some hL.active_chain hL.active_length_le hcheck
        simp only [hcheck] at hspec ⊢
        have hres : T.reserved.head? = (w.control s).reservedHead := hL.reserved.chain.head.symm
        split
        · next hc =>
          rw [if_pos hc] at hspec
          simp only [ends_modify] at hspec ⊢
          refine ⟨hfits.mpr hin, fun hn => hn.1.2.1 ?_, hspec.spliced hi
            (migrate_accounted hi hne hc.1 hs hc.2).touchEnds⟩
          rw [hT.reservedBlocks hs]
          exact List.head?_eq_none_iff.mp (hres.trans hc.2)
        · next hc =>
          simp only [ends_bind, ends_modify]
          refine (((controlOrNew_spec hi).and (controlOrNew_ends hf)).and
            (controlOrNew_fails.and controlOrNew_error)).mono ?_ ?_
          · rintro d u ⟨⟨⟨D, hcon⟩, hfor⟩, hok, -⟩
            refine ⟨hfits.mpr hin, fun hn => hok hn.1.2.2 hn.2, ?_⟩
            exact (commit_absorbed hi hne hs hT hact hcon).touchEnds.spliced hi
              (commit_accounted hi hne hs hT hact hcon hfor).touchEnds
          · rintro e u ⟨⟨-, hnone, hu⟩, ⟨-, hfail⟩, he⟩
            refine ⟨hu, .inr ⟨hfits.mpr hin, ⟨?_, ?_, hnone⟩, hfail, he⟩⟩
            · rw [hT.activeBlocks hs]
              exact hact
            · rw [hT.reservedBlocks hs]
              intro hnil
              rw [hnil] at hres
              exact hc ⟨hnone, hres.symm⟩

end CCForge.Hive
