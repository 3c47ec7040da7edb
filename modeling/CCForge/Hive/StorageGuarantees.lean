import CCForge.Hive.Packing
import CCForge.Hive.UseGuarantees

/-!
# Guarantees of the reserved storage

`reserve` makes no more blocks than it must; `shrink_to_fit` and `reshape` allocate before they move
the elements, and keep them in order.
-/

namespace CCForge.Hive

open World Effect

variable {α : Type} {env : Env α} {pocma : Bool} {w : World α} {h : HiveId}

/-! ## Planning -/

/-- `plan_capacity` finds the least new blocks whenever there are any that do, and no operation of
`plan_capacity` or of the loops that follow it wraps. -/
structure PlanExact (env : Env α) (w : World α) (h : HiveId) (current requested : ℕ) : Prop where
  feasible : (planCapacity env w h current requested).isSome ↔
    requested ≤ maxSize env w h ∧ current ≤ maxSize env w h ∧
      (w.container h).limits.min ≤ allocationBlockMax w h ∧
      ∃ capacities, Suffices env w h current requested capacities
  least : ∀ plan, planCapacity env w h current requested = some plan →
    plan.Least env w h current requested
  unwrapped : maxSize env w h < 2 ^ 64 → current ≤ requested →
    planCapacityChecked env w h current requested = some (planCapacity env w h current requested) ∧
      ∀ plan, planCapacity env w h current requested = some plan →
        blockCapacitiesChecked (w.container h).limits.min plan.blockMax plan.blocks plan.added =
          some (blockCapacities w h plan) ∧
        capacityChecked current (blockCapacities w h plan) = some (current + plan.added)

theorem planExact (hmin : 0 < (w.container h).limits.min) (current requested : ℕ) :
    PlanExact env w h current requested := by
  refine ⟨planCapacity_isSome hmin, fun plan hp => planCapacity_least hmin hp, fun hsize hle =>
    ⟨planCapacityChecked_eq hsize hle, fun plan hp => ?_⟩⟩
  have hleast := planCapacity_least hmin hp
  obtain ⟨hplan, -⟩ := planCapacity_spec hp
  have hfits := hleast.works.fits
  rw [hleast.sum] at hfits
  constructor
  · refine blockCapacitiesChecked_eq hplan.room hplan.lower hplan.upper ?_
    exact (Nat.le_add_left _ _).trans_lt (hfits.trans_lt hsize)
  · rw [capacityChecked_eq, hleast.sum]
    rw [hleast.sum]
    exact hfits.trans_lt hsize

/-- The program makes reserved blocks of these capacities. Those that it has made when an allocation
fails stay, and are as good as any others. -/
structure Makes (env : Env α) (w : World α) (n : ℕ) (m : HiveM α Unit) (capacities : List ℕ) :
    Prop where
  all : outcome m w = .ok () → Grew w (after m w) (.named n) capacities
  part : ∀ e, outcome m w = .error e → AllocationFailed env e ∧
    ∃ k < capacities.length, Grew w (after m w) (.named n) (capacities.take k)
  sound : Sound env (after m w)
  blocks : BlocksWithin (after m w) (.named n)

theorem Sound.makes {n current requested : ℕ} {plan : Plan} (hs : Sound env w)
    (hp : planCapacity env w (.named n) current requested = some plan) :
    Makes env w n (reserveBlocks env (.named n) plan.blockMax plan.blocks plan.added)
      (blockCapacities w (.named n) plan) := by
  have hi := hs.settled.inv
  obtain ⟨hplan, -⟩ := planCapacity_spec hp
  have hmax : plan.blockMax ≤ (w.container (.named n)).limits.max := by
    rw [planCapacity_blockMax hp]
    exact allocationBlockMax_limits
  have hgrew : Ends (reserveBlocks env _ _ _ _) w _ _ :=
    reserveBlocks_grew hi hs.tight hplan.positive hplan.room hmax hplan.small hplan.lower hplan.upper
  have hsound : Sound env (after (reserveBlocks env (.named n) plan.blockMax plan.blocks plan.added)
      w) := by
    refine Ends.of_both (P := fun u => Sound env u) ?_
    refine ((hplan.keepsTight hi hs.tight hmax).and hgrew).mono ?_ ?_
    · rintro - u ⟨hk, hg⟩
      exact ⟨hg.same.unchanged.touches.settled hs.settled, hk.tight, hk.sound.legal hs.legal⟩
    · rintro e u ⟨hk, ⟨k, -, hg⟩, -⟩
      exact ⟨hg.same.unchanged.touches.settled hs.settled, hk.tight, hk.sound.legal hs.legal⟩
  refine ⟨fun ho => hgrew.of_ok ho, fun e he => ?_, hsound, hsound.blocksWithin n⟩
  obtain ⟨⟨k, hk, hg⟩, hf⟩ := hgrew.of_error he
  refine ⟨hf, k, ?_, hg⟩
  unfold blockCapacities
  rw [greedyParts_length]
  exact hk

theorem run_reserve (k : ℕ) : (reserve env h k).run.run w =
    if k ≤ w.capacity h then (.ok (), w)
    else
      match planCapacity env w h (w.capacity h) k with
      | none => (.error (.lengthError "std::hive::reserve exceeds max_size"), w)
      | some plan => (reserveBlocks env h plan.blockMax plan.blocks plan.added).run.run w := by
  have hrun : (reserve env h k).run.run w = ExceptT.run (
      if k ≤ w.capacity h then pure ()
      else
        match planCapacity env w h (w.capacity h) k with
        | none => throw (.lengthError "std::hive::reserve exceeds max_size")
        | some plan => reserveBlocks env h plan.blockMax plan.blocks plan.added : HiveM α Unit) w := rfl
  rw [hrun]
  split
  · rfl
  · split <;> rfl

/-- `reserve` does nothing, throws and does nothing, or makes the blocks of the least plan. -/
structure ReserveExact (env : Env α) (w : World α) (n : ℕ) : Prop where
  made : ∀ current requested plan, planCapacity env w (.named n) current requested = some plan →
    Makes env w n (reserveBlocks env (.named n) plan.blockMax plan.blocks plan.added)
      (blockCapacities w (.named n) plan)
  idle : ∀ k ≤ w.capacity (.named n),
    outcome (reserve env (.named n) k) w = .ok () ∧ after (reserve env (.named n) k) w = w
  refused : ∀ k, w.capacity (.named n) < k →
    planCapacity env w (.named n) (w.capacity (.named n)) k = none →
    outcome (reserve env (.named n) k) w =
        .error (.lengthError "std::hive::reserve exceeds max_size") ∧
      after (reserve env (.named n) k) w = w
  grows : ∀ k, w.capacity (.named n) < k → ∀ plan,
    planCapacity env w (.named n) (w.capacity (.named n)) k = some plan →
    Makes env w n (reserve env (.named n) k) (blockCapacities w (.named n) plan)
  enough : ∀ k, outcome (reserve env (.named n) k) w = .ok () →
    k ≤ (after (reserve env (.named n) k) w).capacity (.named n)

theorem Sound.reserveExact (hs : Sound env w) (n : ℕ) : ReserveExact env w n := by
  have hi := hs.settled.inv
  refine ⟨fun current requested plan hp => hs.makes hp, fun k hk => ?_, fun k hk hp => ?_,
    fun k hk plan hp => ?_, fun k ho => ((reserve_spec hi k).of_ok ho).2⟩
  · unfold outcome after
    rw [run_reserve, if_pos hk]
    exact ⟨rfl, rfl⟩
  · unfold outcome after
    rw [run_reserve, if_neg (Nat.not_le.mpr hk), hp]
    exact ⟨rfl, rfl⟩
  · have hrun : (reserve env (.named n) k).run.run w = _ := run_reserve k
    rw [if_neg (Nat.not_le.mpr hk), hp] at hrun
    have hmakes := hs.makes hp
    have hout : outcome (reserve env (.named n) k) w =
        outcome (reserveBlocks env (.named n) plan.blockMax plan.blocks plan.added) w :=
      congrArg Prod.fst hrun
    have hafter : after (reserve env (.named n) k) w =
        after (reserveBlocks env (.named n) plan.blockMax plan.blocks plan.added) w :=
      congrArg Prod.snd hrun
    constructor
    · rw [hout, hafter]
      exact hmakes.all
    · rw [hout, hafter]
      exact hmakes.part
    · rw [hafter]
      exact hmakes.sound
    · rw [hafter]
      exact hmakes.blocks

/-- A plan is found whenever some blocks do, it has the fewest blocks and the least sum, and no
operation wraps. `reserve` throws and changes nothing, or makes the blocks of its plan; those made
before an allocation fails stay. -/
theorem capacity_planning (hr : Reachable (useStep env pocma) (Blank env) w) (n : ℕ) :
    (∀ (u : World α) (h : HiveId), 0 < (u.container h).limits.min →
      ∀ current requested, PlanExact env u h current requested) ∧ ReserveExact env w n :=
  ⟨fun _ _ hmin => planExact hmin, (reachable_use_sound hr).reserveExact n⟩

/-- Five more elements need three blocks of two. -/
theorem capacity_planning_example :
    (∃ plan, planCapacity (exampleEnv 1000) (afterUses exampleUses) (.named 0) 4 9 = some plan ∧
      blockCapacities (afterUses exampleUses) (.named 0) plan = [2, 2, 2] ∧
      plan.Least (exampleEnv 1000) (afterUses exampleUses) (.named 0) 4 9) ∧
      9 ≤ (after (reserve (exampleEnv 1000) (.named 0) 9) (afterUses exampleUses)).capacity
        (.named 0) := by
  obtain ⟨hplans, hreserve⟩ := capacity_planning exampleUsed 0
  have hplan : planCapacity (exampleEnv 1000) (afterUses exampleUses) (.named 0) 4 9 =
      some ⟨3, 6, 2⟩ := by rfl
  exact ⟨⟨_, hplan, by decide +kernel, (hplans _ (.named 0) (by decide +kernel) 4 9).least _ hplan⟩,
    hreserve.enough 9 (by rfl)⟩

/-! ## Rebuilding -/

/-- A rebuild allocates all blocks before the first element moves. If that fails, it throws the same
and all elements are where they were; the moves allocate nothing, and make one call for each
element. -/
structure AllocatesFirst (env : Env α) (w : World α) (h : HiveId) (limits : Limits)
    (prepare : HiveM α Unit) : Prop where
  failed : ∀ e, outcome prepare (withLocal w h limits) = .error e → e ≠ .element ∧
    outcome (rebuild env h limits prepare) w = .error e ∧
      (after (rebuild env h limits prepare) w).elements h = w.elements h
  moves : outcome prepare (withLocal w h limits) = .ok () →
    let u := after prepare (withLocal w h limits)
    let move := appendMoveTo env .rebuilt (u.last h) (u.size h + 1) (u.first h)
    (outcome move u = .ok () → Quiet u (after move u) .rebuilt (w.size h)) ∧
      ∀ e, outcome move u = .error e →
        e = .element ∧ ∃ n ≤ w.size h, Quiet u (after move u) .rebuilt n

theorem Prepares.allocatesFirst {limits : Limits} {prepare : HiveM α Unit} (hi : Inv w)
    (hn : NoLocal w) (hh : h ≠ .rebuilt) (hl : isWithinHardLimits env limits)
    (hp : Prepares prepare w h limits) : AllocatesFirst env w h limits prepare := by
  have hp' : Ends prepare (withLocal w h limits) _ _ := hp
  constructor
  · intro e he
    obtain ⟨hu, hne⟩ := hp'.of_error he
    have hu₁ := (hu.unchanged_local hi hn).1
    have hends : Ends (rebuild env h limits prepare) w (fun _ _ => False)
        (fun e' w' => e' = e ∧ w'.elements h = w.elements h) := by
      rw [ends_rebuild, if_pos hl, ends_of_error he]
      refine ⟨rfl, ?_⟩
      -- only the destructor of the local hive runs
      rw [(releaseStorage_spec hu₁.touches.inv).1.elements h hh, hu₁.all h]
    obtain ⟨e', he', rfl, hel⟩ := hends.throws
    exact ⟨hne, he', hel⟩
  · intro ho
    obtain ⟨hu, hroom⟩ := hp'.of_ok ho
    have hready := hu.ready hi hn hroom
    have hsize := hready.size
    -- the local hive has room for all elements before the first one moves
    have hmoves : Ends (appendMoveTo env _ _ _ _) _ _ _ :=
      appendMoveTo_inOrder hh hready
    rw [hsize] at hmoves
    simp only [hsize]
    refine ⟨fun hok => ?_, fun e he => ?_⟩
    · have hq := (hmoves.of_ok hok).2.quiet
      rw [← hready.inv.size_eq, hsize] at hq
      exact hq
    · obtain ⟨-, rfl, hq⟩ := hmoves.of_error he
      exact ⟨rfl, hq⟩

/-- `shrink_to_fit` keeps the sequence of the values and the capacity above their number, and drops
all reserved blocks. What fails before the first move leaves every element in place. -/
structure ShrinkExact (env : Env α) (w : World α) (h : HiveId) : Prop where
  values : outcome (shrinkToFit env h) w = .ok () →
    ((after (shrinkToFit env h) w).elements h).map Prod.snd = (w.elements h).map Prod.snd
  kept : shrinkRebuilds env w h = false →
    (after (shrinkToFit env h) w).elements h = w.elements h
  failed : ∀ e, outcome (shrinkToFit env h) w = .error e → e ≠ .element →
    (after (shrinkToFit env h) w).elements h = w.elements h
  capacity : (after (shrinkToFit env h) w).capacity h ≤ w.capacity h
  room : (after (shrinkToFit env h) w).size h ≤ (after (shrinkToFit env h) w).capacity h
  unreserved : (after (shrinkToFit env h) w).reservedBlocks h = [] ∨
    outcome (shrinkToFit env h) w = .ok () ∧ shrinkRebuilds env w h = true
  allocates : let u := w.trimCapacity h
    ∀ plan, planCapacity env u h 0 (u.size h) = some plan →
      AllocatesFirst env u h (u.container h).limits
        (reserveBlocks env .rebuilt plan.blockMax plan.blocks plan.added)

theorem Sound.shrinkExact (hs : Sound env w) (n : ℕ) : ShrinkExact env w (.named n) := by
  have hi := hs.settled.inv
  have hn := hs.settled.noLocal
  have hh : HiveId.named n ≠ .rebuilt := by simp
  have hspec : Ends (shrinkToFit env (.named n)) w _ _ := shrinkToFit_spec hi hn hh
  have hstorage : Ends (shrinkToFit env (.named n)) w _ _ := shrinkToFit_storage hi hn hs.tight hh
  refine ⟨fun ho => (hstorage.of_ok ho).1, fun hk => ?_, fun e he hne => ?_, ?_, ?_, ?_,
    fun plan hp => ?_⟩
  · exact Ends.of_both (hspec.mono (fun _ _ hv => hv.kept hk) fun _ _ hv => hv.kept hk)
  · have hafter := (hspec.of_error he).source
    rwa [AfterError, if_neg hne] at hafter
  · exact Ends.of_both (P := fun u => u.capacity (.named n) ≤ w.capacity (.named n))
      (hstorage.mono (fun _ _ hv => hv.2.1) fun _ _ hv => hv.1)
  · have hinv : Inv (after (shrinkToFit env (.named n)) w) :=
      Ends.of_both (hspec.mono (fun _ _ hv => hv.inv) fun _ _ hv => hv.inv)
    exact hinv.size_le_capacity _
  · cases ho : outcome (shrinkToFit env (.named n)) w with
    | ok a => exact (hstorage.of_ok ho).2.2.imp_right fun hr => ⟨rfl, hr⟩
    | error e => exact .inl (hstorage.of_error ho).2
  · have htrim : SameContents w (w.trimCapacity (.named n)) (.named n) := trimCapacity_spec hi
    have hn' := htrim.unchanged.noLocal hh hn
    have hl : isWithinHardLimits env ((w.trimCapacity (.named n)).container (.named n)).limits := by
      rw [htrim.limits]
      exact hs.legal _ hh
    obtain ⟨hplan, hsize⟩ := planCapacity_spec hp
    rw [Nat.zero_add] at hsize
    exact Prepares.allocatesFirst htrim.unchanged.touches.inv hn' hh hl
      (PlanOk.prepares htrim.unchanged.touches.inv hn' hplan hsize)

/-- `reshape` refuses invalid limits. Else it keeps the sequence of the values, and every block is
within the new limits; nothing moves if every active block is so before. -/
structure ReshapeExact (env : Env α) (w : World α) (h : HiveId) (limits : Limits) : Prop where
  refused : ¬isWithinHardLimits env limits →
    outcome (reshape env h limits) w =
        .error (.lengthError "std::hive: invalid block capacity limits") ∧
      after (reshape env h limits) w = w
  values : outcome (reshape env h limits) w = .ok () →
    ((after (reshape env h limits) w).elements h).map Prod.snd = (w.elements h).map Prod.snd
  newLimits : outcome (reshape env h limits) w = .ok () →
    ((after (reshape env h limits) w).container h).limits = limits
  blocks : BlocksWithin (after (reshape env h limits) w) h
  kept : (∀ b ∈ w.activeBlocks h, within limits (w.block b).capacity) →
    (after (reshape env h limits) w).elements h = w.elements h
  failed : ∀ e, outcome (reshape env h limits) w = .error e → e ≠ .element →
    (after (reshape env h limits) w).elements h = w.elements h
  allocates : isWithinHardLimits env limits →
    AllocatesFirst env w h limits (reserve env .rebuilt (w.size h))

theorem World.Inv.reshapeRebuilds_false {limits : Limits} (hi : Inv w)
    (hin : ∀ b ∈ w.activeBlocks h, within limits (w.block b).capacity) :
    reshapeRebuilds w h limits = false := by
  unfold reshapeRebuilds
  cases hc : (w.container h).control with
  | none => rfl
  | some c =>
    obtain ⟨S, hS⟩ := hi h c hc
    have hL := hS.represents.lists
    rw [hS.activeBlocks hc] at hin
    exact (needsRebuild_eq hL.active_chain hL.active_length_le).mpr hin

theorem Sound.reshapeExact (hs : Sound env w) (n : ℕ) (limits : Limits) :
    ReshapeExact env w (.named n) limits := by
  have hi := hs.settled.inv
  have hn := hs.settled.noLocal
  have hh : HiveId.named n ≠ .rebuilt := by simp
  have hspec : Ends (reshape env (.named n) limits) w _ _ := reshape_spec hi hn hh
  have horder : Ends (reshape env (.named n) limits) w _ _ := reshape_inOrder hi hn hh
  refine ⟨fun hl => ?_, fun ho => (horder.of_ok ho).1, fun ho => (horder.of_ok ho).2, ?_,
    fun hin => ?_, fun e he hne => ?_, fun hl => ?_⟩
  · have hrun : (reshape env (.named n) limits).run.run w =
        (.error (.lengthError "std::hive: invalid block capacity limits"), w) := by
      unfold reshape validateLimits
      rw [if_neg hl]
      rfl
    unfold outcome after
    rw [hrun]
    exact ⟨rfl, rfl⟩
  · have hsound : Sound env (after (reshape env (.named n) limits) w) := by
      refine Ends.of_both (P := fun u => Sound env u) ?_
      refine (hspec.and (reshape_keepsSound hi hn hs.tight hh)).mono ?_ ?_
      · rintro - u ⟨hr, hk⟩
        exact ⟨⟨hr.inv, hr.noLocal⟩, hk.tight, hk.legal hs.legal⟩
      · rintro e u ⟨hr, hk⟩
        exact ⟨⟨hr.inv, hr.noLocal⟩, hk.tight, hk.legal hs.legal⟩
    exact hsound.blocksWithin n
  · have hr := hi.reshapeRebuilds_false hin
    exact Ends.of_both (hspec.mono (fun _ _ hv => hv.kept hr) fun _ _ hv => hv.kept hr)
  · have hafter := (hspec.of_error he).source
    rwa [AfterError, if_neg hne] at hafter
  · exact Prepares.allocatesFirst hi hn hh hl (reserve_spec (withLocal_inv hi hn) _)

end CCForge.Hive
