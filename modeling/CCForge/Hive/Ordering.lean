import Mathlib.Logic.Relation
import Mathlib.Order.Compare
import CCForge.Hive.Traversal

/-!
# The order of the iterators

`operator<=>` compares the index within a block and the order stamps of two blocks of one
control. Along the active list the stamps increase, so it is the order of the traversal.
-/

namespace CCForge.Hive

variable {α : Type}

/-- The addresses that `less<const void*>` compares. -/
structure Addresses where
  hive : Option HiveId → ℕ
  block : BlockId → ℕ

/-- `identity_order`. -/
def identityOrder {ι : Type} [DecidableEq ι] (address : ι → ℕ) (left right : ι) : Ordering :=
  if left = right then .eq
  else if address left < address right then .lt
  else .gt

namespace World

/-- The hive that owns the control of a block. -/
def ownerOf (w : World α) (b : BlockId) : Option HiveId :=
  some (w.control (w.blockControl b)).owner

/-- `operator<=>`. -/
def threeWay (addresses : Addresses) (w : World α) (left right : Iterator) : Ordering :=
  match left.block, right.block with
  | some a, some b =>
    if a = b then compare left.index right.index
    else if w.blockControl a = w.blockControl b then compare (w.order a) (w.order b)
    else
      match identityOrder addresses.hive (w.ownerOf a) (w.ownerOf b) with
      | .eq => identityOrder addresses.block a b
      | owners => owners
  | some a, none =>
    if w.ownerOf a = right.owner then .lt
    else identityOrder addresses.hive (w.ownerOf a) right.owner
  | none, some b =>
    if left.owner = w.ownerOf b then .gt
    else identityOrder addresses.hive left.owner (w.ownerOf b)
  | none, none =>
    if left.owner = right.owner then compare left.epoch right.epoch
    else identityOrder addresses.hive left.owner right.owner

/-- `++x` is defined and gives `y`. -/
def Advances (w : World α) (x y : Iterator) : Prop := x.block.isSome ∧ w.next x = y

variable {addresses : Addresses} {w : World α} {h : HiveId} {c : ControlId} {S : Shape}
  {b b' : BlockId} {i j : ℕ}

theorem threeWay_self (x : Iterator) : threeWay addresses w x x = .eq := by
  obtain ⟨b, index, owner, epoch⟩ := x
  cases b with
  | none =>
    simp only [threeWay, if_true]
    exact compare_eq_iff_eq.mpr rfl
  | some b =>
    simp only [threeWay, if_true]
    exact compare_eq_iff_eq.mpr rfl

/-- `y` is behind `x`, whichever way they are compared. -/
structure Before (addresses : Addresses) (w : World α) (x y : Iterator) : Prop where
  less : threeWay addresses w x y = .lt
  greater : threeWay addresses w y x = .gt

theorem before_inside (hij : i < j) : Before addresses w (.at b i) (.at b j) := by
  constructor
  · simp only [threeWay, Iterator.at, if_true]
    exact compare_lt_iff_lt.mpr hij
  · simp only [threeWay, Iterator.at, if_true]
    exact compare_gt_iff_gt.mpr hij

theorem before_blocks (hc : w.blockControl b = w.blockControl b') (ho : w.order b < w.order b') :
    Before addresses w (.at b i) (.at b' j) := by
  have hne : b ≠ b' := fun he => absurd (he ▸ ho) (Nat.lt_irrefl _)
  constructor
  · simp only [threeWay, Iterator.at, if_neg hne, if_pos hc]
    exact compare_lt_iff_lt.mpr ho
  · simp only [threeWay, Iterator.at, if_neg hne.symm, if_pos hc.symm]
    exact compare_gt_iff_gt.mpr ho

theorem before_last (ho : w.ownerOf b = some h) :
    Before addresses w (.at b i) (w.last h) := by
  constructor
  · simp only [threeWay, Iterator.at, World.last]
    exact if_pos ho
  · simp only [threeWay, Iterator.at, World.last]
    exact if_pos ho.symm

theorem HiveOk.positions_before (hh : HiveOk w h c S) :
    ((w.slotsOf S.active).map iteratorAt).Pairwise (Before addresses w) := by
  have hL := hh.represents.lists
  have hcontrol : ∀ b ∈ S.active, w.blockControl b = c := fun b hb =>
    hL.mem_owned (Shape.mem_blocks.mpr (.inl hb))
  rw [List.pairwise_map, slotsOf, List.pairwise_flatMap]
  refine ⟨fun b _ => ?_, hL.active.ordered.imp_of_mem fun {a b} ha hb ho => ?_⟩
  · rw [List.pairwise_map]
    exact Block.live_sorted.imp fun hij => before_inside hij
  · intro p hp q hq
    obtain ⟨i, -, rfl⟩ := List.mem_map.mp hp
    obtain ⟨j, -, rfl⟩ := List.mem_map.mp hq
    exact before_blocks (by rw [hcontrol a ha, hcontrol b hb]) ho

/-- The iterators of a hive are listed in increasing order. -/
theorem Inv.iterators_before (hi : Inv w) (h : HiveId) :
    (w.iterators h).Pairwise (Before addresses w) := by
  cases hc : (w.container h).control with
  | none =>
    simp only [iterators, positions, activeBlocks, hc, slotsOf, List.flatMap_nil, List.map_nil,
      List.nil_append]
    exact List.pairwise_singleton _ _
  | some c =>
    obtain ⟨S, hh⟩ := hi h c hc
    rw [iterators, positions, hh.activeBlocks hc, List.pairwise_append]
    refine ⟨hh.positions_before, List.pairwise_singleton _ _, fun x hx y hy => ?_⟩
    obtain ⟨⟨b, i⟩, hp, rfl⟩ := List.mem_map.mp hx
    obtain ⟨a, ha, hm⟩ := List.mem_flatMap.mp hp
    obtain ⟨j, -, hj⟩ := List.mem_map.mp hm
    cases hj
    rw [List.mem_singleton.mp hy]
    refine before_last ?_
    rw [ownerOf, hh.represents.lists.mem_owned (Shape.mem_blocks.mpr (.inl ha)), hh.owner]

variable {its : List Iterator} {x y z : Iterator}

/-- Comparing two iterators compares their places in the list. -/
theorem threeWay_getElem (hp : its.Pairwise (Before addresses w)) (hi : i < its.length)
    (hj : j < its.length) : threeWay addresses w its[i] its[j] = compare i j := by
  rw [List.pairwise_iff_getElem] at hp
  obtain hlt | rfl | hgt := Nat.lt_trichotomy i j
  · rw [(hp i j hi hj hlt).less]
    exact (compare_lt_iff_lt.mpr hlt).symm
  · rw [threeWay_self]
    exact (compare_eq_iff_eq.mpr rfl).symm
  · rw [(hp j i hj hi hgt).greater]
    exact (compare_gt_iff_gt.mpr hgt).symm

theorem Inv.iterators_advance (hi : Inv w) {k : ℕ} (hk : k + 1 < (w.iterators h).length) :
    w.Advances (w.iterators h)[k] (w.iterators h)[k + 1] := by
  have hchain := List.isChain_iff_getElem.mp (hi.iterators_chain h) k hk
  refine ⟨?_, hchain.next⟩
  have hlen : k < ((w.positions h).map iteratorAt).length := by
    rw [iterators, List.length_append, List.length_singleton] at hk
    omega
  have hget : (w.iterators h)[k] = ((w.positions h).map iteratorAt)[k] :=
    List.getElem_append_left hlen
  rw [hget, List.getElem_map]
  rfl

theorem last_not_advances : ¬w.Advances (w.last h) y := fun hy => absurd hy.1 Bool.false_ne_true

/-- One step of `operator++` goes to the next place. -/
theorem Inv.eq_of_advances (hi : Inv w) {k : ℕ} (hk : k < (w.iterators h).length)
    (ha : w.Advances (w.iterators h)[k] y) : ∃ hk' : k + 1 < (w.iterators h).length,
      y = (w.iterators h)[k + 1] := by
  obtain hlt | hge := Nat.lt_or_ge (k + 1) (w.iterators h).length
  · exact ⟨hlt, ha.2.symm.trans (hi.iterators_advance hlt).2⟩
  · have hlast : (w.iterators h)[k] = w.last h := by
      have hlen : k = ((w.positions h).map iteratorAt).length := by
        rw [iterators, List.length_append, List.length_singleton] at hk hge
        omega
      simp only [iterators, hlen, List.getElem_concat_length]
    rw [hlast] at ha
    exact absurd ha last_not_advances

/-- `operator++`, once or more, goes to every later place and to no other. -/
theorem Inv.transGen_advances_iff (hi : Inv w) {k : ℕ} (hk : k < (w.iterators h).length) :
    Relation.TransGen w.Advances (w.iterators h)[k] y ↔
      ∃ m, k < m ∧ ∃ hm : m < (w.iterators h).length, y = (w.iterators h)[m] := by
  constructor
  · intro ht
    induction ht with
    | single ha =>
      obtain ⟨hk', hy⟩ := hi.eq_of_advances hk ha
      exact ⟨k + 1, Nat.lt_succ_self k, hk', hy⟩
    | tail _ ha ih =>
      obtain ⟨m, hkm, hm, rfl⟩ := ih
      obtain ⟨hm', hy⟩ := hi.eq_of_advances hm ha
      exact ⟨m + 1, Nat.lt_succ_of_lt hkm, hm', hy⟩
  · rintro ⟨m, hkm, hm, rfl⟩
    induction m, hkm using Nat.le_induction with
    | base => exact .single (hi.iterators_advance hm)
    | succ m hkm ih => exact .tail (ih (Nat.lt_of_succ_lt hm)) (hi.iterators_advance hm)

/-- What the comparison of two iterators of one hive means. -/
structure ThreeWayExact (addresses : Addresses) (w : World α) (h : HiveId) : Prop where
  equal : ∀ x ∈ w.iterators h, ∀ y ∈ w.iterators h,
    (threeWay addresses w x y = .eq ↔ same x y = true) ∧ (same x y = true ↔ x = y)
  converse : ∀ x ∈ w.iterators h, ∀ y ∈ w.iterators h,
    threeWay addresses w y x = (threeWay addresses w x y).swap
  transitive : ∀ x ∈ w.iterators h, ∀ y ∈ w.iterators h, ∀ z ∈ w.iterators h,
    threeWay addresses w x y = .lt → threeWay addresses w y z = .lt →
      threeWay addresses w x z = .lt
  traversal : ∀ x ∈ w.iterators h, ∀ y ∈ w.iterators h,
    threeWay addresses w x y = .lt ↔ Relation.TransGen w.Advances x y

theorem Inv.threeWayExact (hi : Inv w) (addresses : Addresses) (h : HiveId) :
    ThreeWayExact addresses w h := by
  have hbefore : (w.iterators h).Pairwise (Before addresses w) := hi.iterators_before h
  refine ⟨fun x hx y hy => ?_, fun x hx y hy => ?_, fun x hx y hy z hz => ?_, fun x hx y hy => ?_⟩
  · have hsame : same x y = true ↔ x = y := by
      constructor
      · exact same_eq hx hy
      · rintro rfl
        exact same_refl x
    refine ⟨?_, hsame⟩
    obtain ⟨i, hi', rfl⟩ := List.getElem_of_mem hx
    obtain ⟨j, hj', rfl⟩ := List.getElem_of_mem hy
    rw [hsame, threeWay_getElem hbefore, compare_eq_iff_eq, (hi.iterators_nodup h).getElem_inj_iff]
  · obtain ⟨i, hi', rfl⟩ := List.getElem_of_mem hx
    obtain ⟨j, hj', rfl⟩ := List.getElem_of_mem hy
    rw [threeWay_getElem hbefore, threeWay_getElem hbefore]
    exact (Std.OrientedOrd.eq_swap (a := j) (b := i))
  · obtain ⟨i, hi', rfl⟩ := List.getElem_of_mem hx
    obtain ⟨j, hj', rfl⟩ := List.getElem_of_mem hy
    obtain ⟨k, hk', rfl⟩ := List.getElem_of_mem hz
    rw [threeWay_getElem hbefore, threeWay_getElem hbefore, threeWay_getElem hbefore,
      compare_lt_iff_lt, compare_lt_iff_lt, compare_lt_iff_lt]
    exact Nat.lt_trans
  · obtain ⟨i, hi', rfl⟩ := List.getElem_of_mem hx
    obtain ⟨j, hj', rfl⟩ := List.getElem_of_mem hy
    rw [threeWay_getElem hbefore, compare_lt_iff_lt, hi.transGen_advances_iff hi']
    constructor
    · intro hlt
      exact ⟨j, hlt, hj', rfl⟩
    · rintro ⟨m, hlt, hm, he⟩
      rwa [(hi.iterators_nodup h).getElem_inj_iff.mp he]

end World

end CCForge.Hive
