import CCForge.Hive.Guarantees
import CCForge.Hive.Ordering
import CCForge.Hive.SlotIndices
import CCForge.Hive.Splicing

/-!
# Guarantees of a program that also moves hives

Insertions that throw, the limits of the blocks, `splice` and the comparison of iterators, in
every state that a program with moves can reach.
-/

namespace CCForge.Hive

open World Effect

variable {α : Type} {env : Env α} {pocma : Bool} {w : World α}

/-- Nothing is allocated in the store of the examples. -/
theorem exampleBlank (n : ℕ) : Blank (exampleEnv n) exampleStore := ⟨exampleStart n, fun _ => rfl⟩

/-- The state after some actions. -/
def afterActions (n : ℕ) (actions : List (Action ℕ)) : World ℕ :=
  actions.foldl (fun w a => after (a.perform (exampleEnv n) false) w) exampleStore

/-- The first of two elements is erased. -/
def erasedActions : List (Action ℕ) :=
  [.call (.emplace 0 5), .call (.emplace 0 7), .call (.erase 0 (.at 0 0))]

theorem erasedReachable : Reachable (act (exampleEnv 8) false) (Blank (exampleEnv 8))
    (afterActions 8 erasedActions) :=
  ⟨exampleStore, exampleBlank 8, erasedActions, by rfl⟩

/-! ## Insertions that throw -/

/-- An `emplace` that throws, wherever it does, leaves every hive, control, block and link as it
was before, and all memory that it allocated is released. -/
theorem emplace_all_or_nothing (hr : Reachable (act env pocma) (Blank env) w) (n : ℕ) (v : α)
    (e : Error) (he : outcome (emplace env (.named n) v) w = .error e) :
    Undone w (after (emplace env (.named n) v) w) ∧
      ∀ x, (after (emplace env (.named n) v) w).elements x = w.elements x := by
  have hs := reachable_sound hr
  have hi := hs.settled.inv
  constructor
  · exact (emplace_undone hi hs.tight.noneFresh).of_error he
  · exact ((emplace_spec hi).of_error he).all

/-- A constructor that throws has overwritten the links of the slot that it was to reuse. -/
theorem emplace_all_or_nothing_reused :
    outcome (emplace (exampleEnv 8) (.named 0) 9) (afterActions 8 erasedActions) = .error .element ∧
      ((afterActions 8 erasedActions).block 0).freeHead = some 0 ∧
      ∀ x, (after (emplace (exampleEnv 8) (.named 0) 9) (afterActions 8 erasedActions)).elements x =
        (afterActions 8 erasedActions).elements x := by
  have he : outcome (emplace (exampleEnv 8) (.named 0) 9) (afterActions 8 erasedActions) =
      .error .element := by rfl
  exact ⟨he, by rfl, (emplace_all_or_nothing erasedReachable 0 9 .element he).2⟩

/-! ## Limits -/

/-- Every block of the hive is within its limits, and stores its indices exactly. -/
structure BlocksWithin (w : World α) (h : HiveId) : Prop where
  max : (w.container h).limits.max ≤ 65535
  active : ∀ b ∈ w.activeBlocks h, (w.container h).limits.min ≤ (w.block b).capacity ∧
    (w.block b).capacity ≤ (w.container h).limits.max ∧ (w.block b).SlotsExact
  reserved : ∀ b ∈ w.reservedBlocks h, (w.container h).limits.min ≤ (w.block b).capacity ∧
    (w.block b).capacity ≤ (w.container h).limits.max ∧ (w.block b).SlotsExact

theorem Legal.max_le (hl : Legal env w) (n : ℕ) : (w.container (.named n)).limits.max ≤ 65535 := by
  have hard := hl (.named n) (by simp)
  unfold isWithinHardLimits at hard
  have hmax := (of_decide_eq_true hard).2.2
  exact hmax.trans (Nat.min_le_right _ _)

theorem Sound.blocksWithin (hs : Sound env w) (n : ℕ) : BlocksWithin w (.named n) := by
  cases hc : (w.container (.named n)).control with
  | none =>
    refine ⟨hs.legal.max_le n, fun b hb => ?_, fun b hb => ?_⟩
    · simp [World.activeBlocks, hc] at hb
    · simp [World.reservedBlocks, hc] at hb
  | some c =>
    obtain ⟨S, hS⟩ := hs.settled.inv _ c hc
    have hcount := hs.tight.counted _ c hc
    have hfilled := hS.represents.filled
    have hwithin : ∀ b ∈ S.blocks, (w.container (.named n)).limits.min ≤ (w.block b).capacity ∧
        (w.block b).capacity ≤ (w.container (.named n)).limits.max := fun b hb =>
      of_decide_eq_true (hS.within_of_mem hcount hb)
    refine ⟨hs.legal.max_le n, fun b hb => ?_, fun b hb => ?_⟩
    · rw [hS.activeBlocks hc] at hb
      have hbS : b ∈ S.blocks := Shape.mem_blocks.mpr (.inl hb)
      obtain ⟨⟨fl, hok⟩, -⟩ := hfilled.active b hb
      exact ⟨(hwithin b hbS).1, (hwithin b hbS).2, hok.slotsExact⟩
    · rw [hS.reservedBlocks hc] at hb
      have hbS : b ∈ S.blocks := Shape.mem_blocks.mpr (.inr (.inl hb))
      exact ⟨(hwithin b hbS).1, (hwithin b hbS).2,
        (hfilled.reserved b hb).slotsExact (hfilled.capacity b hbS).2⟩

/-- In every hive, each active and each reserved block is within the limits, so that every slot
index, run length and link is represented exactly. -/
theorem blocks_within_limits (hr : Reachable (act env pocma) (Blank env) w) (n : ℕ) :
    BlocksWithin w (.named n) :=
  (reachable_sound hr).blocksWithin n

/-- Hive 1 gets other limits and an element, and takes over the block of hive 0. -/
def splicedActions : List (Action ℕ) :=
  erasedActions ++ [.call (.reshape 1 ⟨1, 2⟩), .call (.emplace 1 9), .call (.splice 1 0),
    .moveConstruct 2 1]

theorem splicedReachable : Reachable (act (exampleEnv 1000) false) (Blank (exampleEnv 1000))
    (afterActions 1000 splicedActions) :=
  ⟨exampleStore, exampleBlank 1000, splicedActions, by rfl⟩

theorem blocks_within_limits_moved :
    BlocksWithin (afterActions 1000 splicedActions) (.named 2) ∧
      ((afterActions 1000 splicedActions).container (.named 2)).limits = ⟨1, 2⟩ ∧
      (afterActions 1000 splicedActions).activeBlocks (.named 2) = [1, 0] :=
  ⟨blocks_within_limits splicedReachable 2, by rfl, by decide +kernel⟩

/-! ## Splicing -/

/-- `splice` moves all elements behind those of the destination if every active block fits and a
control can be allocated where one is needed; otherwise it throws and nothing has changed. -/
theorem splice_conserves (hr : Reachable (act env pocma) (Blank env) w) (n m : ℕ) (hne : n ≠ m) :
    (w.Fits (.named n) (.named m) ∧ ¬(w.NeedsControl (.named n) (.named m) ∧ ControlFails env w) →
      outcome (splice env (.named n) (.named m)) w = .ok () ∧
      Spliced w (after (splice env (.named n) (.named m)) w) (.named n) (.named m) ∧
      ∀ x, TraversalExact (after (splice env (.named n) (.named m)) w) x ∧
        (after (splice env (.named n) (.named m)) w).testInvariants x = true) ∧
    (¬w.Fits (.named n) (.named m) ∨ w.NeedsControl (.named n) (.named m) ∧ ControlFails env w →
      (∃ e, outcome (splice env (.named n) (.named m)) w = .error e) ∧
      Unaltered w (after (splice env (.named n) (.named m)) w)) := by
  have hs := reachable_sound hr
  have hi := hs.settled.inv
  have hnamed : HiveId.named n ≠ .named m := by simpa using hne
  have hspec : Ends (splice env (.named n) (.named m)) w _ _ :=
    splice_exact hi hs.tight.noneFresh hnamed
  cases ho : outcome (splice env (.named n) (.named m)) w with
  | ok a =>
    obtain ⟨hfits, hcontrol, hspliced⟩ := hspec.of_ok ho
    refine ⟨fun _ => ⟨rfl, hspliced, fun x => ⟨hspliced.inv.traversalExact x,
      hspliced.inv.testInvariants x⟩⟩, ?_⟩
    rintro (hn | hn)
    · exact absurd hfits hn
    · exact absurd hn hcontrol
  | error e =>
    obtain ⟨hu, hwhy⟩ := hspec.of_error ho
    refine ⟨fun hgood => ?_, fun _ => ⟨⟨e, rfl⟩, hu⟩⟩
    obtain ⟨hn, -⟩ | ⟨-, hneed, hfail, -⟩ := hwhy
    · exact absurd hgood.1 hn
    · exact absurd ⟨hneed, hfail⟩ hgood.2

/-- Hive 1 has a block of one element, and hive 0 a reserved block beside its active one. -/
def beforeSplice : List (Action ℕ) :=
  [.call (.emplace 0 5), .call (.reserve 0 4), .call (.reshape 1 ⟨1, 2⟩), .call (.emplace 1 9)]

theorem beforeSpliceReachable : Reachable (act (exampleEnv 1000) false) (Blank (exampleEnv 1000))
    (afterActions 1000 beforeSplice) :=
  ⟨exampleStore, exampleBlank 1000, beforeSplice, by rfl⟩

/-- The reserved block stays where it is; a block that is too small for the other hive does not
go there. -/
theorem splice_conserves_both :
    ((afterActions 1000 beforeSplice).reservedBlocks (.named 0) = [1] ∧
      outcome (splice (exampleEnv 1000) (.named 1) (.named 0)) (afterActions 1000 beforeSplice) =
        .ok ()) ∧
    ∃ e, outcome (splice (exampleEnv 1000) (.named 0) (.named 1)) (afterActions 1000 beforeSplice) =
      .error e := by
  have hfits : (afterActions 1000 beforeSplice).Fits (.named 1) (.named 0) := by
    unfold World.Fits
    decide +kernel
  have hnot : ¬(afterActions 1000 beforeSplice).Fits (.named 0) (.named 1) := by
    unfold World.Fits
    decide +kernel
  have hcontrol : ¬(afterActions 1000 beforeSplice).NeedsControl (.named 1) (.named 0) := by
    unfold World.NeedsControl
    decide +kernel
  have hmoved := (splice_conserves beforeSpliceReachable 1 0 (by decide)).1
  have hkept := (splice_conserves beforeSpliceReachable 0 1 (by decide)).2
  exact ⟨⟨by decide +kernel, (hmoved ⟨hfits, fun hn => hcontrol hn.1⟩).1⟩, (hkept (.inl hnot)).1⟩

/-! ## The order of the iterators -/

/-- `operator<=>` is a strict total order of the positions of a hive and its end. It agrees with
`operator==`, and it is the order in which `operator++` reaches them. -/
theorem iterator_order (hr : Reachable (act env pocma) (Blank env) w) (addresses : Addresses)
    (n : ℕ) : ThreeWayExact addresses w (.named n) :=
  (reachable_settled_act hr).inv.threeWayExact addresses _

theorem iterator_order_spliced :
    (∀ addresses, ThreeWayExact addresses (afterActions 1000 splicedActions) (.named 2)) ∧
      (afterActions 1000 splicedActions).iterators (.named 2) =
        [.at 1 0, .at 0 1, (afterActions 1000 splicedActions).last (.named 2)] :=
  ⟨fun addresses => iterator_order splicedReachable addresses 2, by decide +kernel⟩

end CCForge.Hive
