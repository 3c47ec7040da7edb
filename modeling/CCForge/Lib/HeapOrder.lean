import Mathlib.Data.List.Perm.Basic
import Mathlib.Data.List.Nodup
import Mathlib.Data.List.Range
import Mathlib.Logic.Equiv.Basic
import Mathlib.Order.RelClasses

/-!
# Heaps in a numbered sequence

The children of `p` are `2p + 1` and `2p + 2`. In a heap no element precedes one of its children.
`HoleAt` is a heap except for one place that is still to sink.
-/

namespace CCForge

variable {β : Type} {lt : β → β → Prop} {a b : ℕ → β} {start count hole p c i j : ℕ}

/-! ## Rearrangements -/

/-- The elements below `count` have changed places. -/
def Rearranged (count : ℕ) (a b : ℕ → β) : Prop :=
  ∃ σ : Equiv.Perm ℕ, (∀ k, count ≤ k → σ k = k) ∧ b = a ∘ σ

namespace Rearranged

theorem refl (count : ℕ) (a : ℕ → β) : Rearranged count a a := ⟨.refl ℕ, fun _ _ => rfl, rfl⟩

theorem trans {d : ℕ → β} (h : Rearranged count a b) (h' : Rearranged count b d) :
    Rearranged count a d := by
  obtain ⟨σ, hσ, rfl⟩ := h
  obtain ⟨τ, hτ, rfl⟩ := h'
  refine ⟨τ.trans σ, fun k hk => ?_, rfl⟩
  rw [Equiv.trans_apply, hτ k hk, hσ k hk]

theorem mono {n : ℕ} (h : Rearranged count a b) (hn : count ≤ n) : Rearranged n a b := by
  obtain ⟨σ, hσ, rfl⟩ := h
  exact ⟨σ, fun k hk => hσ k (hn.trans hk), rfl⟩

theorem swap (a : ℕ → β) (hi : i < count) (hj : j < count) :
    Rearranged count a (a ∘ Equiv.swap i j) :=
  ⟨Equiv.swap i j, fun _ hk => Equiv.swap_apply_of_ne_of_ne (Nat.ne_of_gt (hi.trans_le hk))
    (Nat.ne_of_gt (hj.trans_le hk)), rfl⟩

theorem lt_of_lt {σ : Equiv.Perm ℕ} (hσ : ∀ k, count ≤ k → σ k = k) (hi : i < count) :
    σ i < count := by
  by_contra hn
  have hfix : σ (σ i) = σ i := hσ (σ i) (Nat.le_of_not_lt hn)
  have hself : σ i = i := σ.injective hfix
  exact hn (hself.trans_lt hi)

theorem perm (h : Rearranged count a b) : ((List.range count).map b).Perm ((List.range count).map a) := by
  obtain ⟨σ, hσ, rfl⟩ := h
  -- a permutation that fixes everything from `count` on permutes the numbers below it
  have hrange : ((List.range count).map σ).Perm (List.range count) := by
    rw [List.perm_ext_iff_of_nodup (List.Nodup.map σ.injective List.nodup_range) List.nodup_range]
    intro k
    rw [List.mem_map]
    constructor
    · rintro ⟨i, hi, rfl⟩
      exact List.mem_range.mpr (lt_of_lt hσ (List.mem_range.mp hi))
    · intro hk
      refine ⟨σ.symm k, List.mem_range.mpr ?_, σ.apply_symm_apply k⟩
      by_contra hn
      have hfix : σ (σ.symm k) = σ.symm k := hσ _ (Nat.le_of_not_lt hn)
      rw [σ.apply_symm_apply] at hfix
      exact hn (hfix ▸ List.mem_range.mp hk)
  rw [← List.map_map]
  exact hrange.map a

end Rearranged

/-! ## The heap condition -/

def ChildOf (p c : ℕ) : Prop := c = 2 * p + 1 ∨ c = 2 * p + 2

theorem ChildOf.below (h : ChildOf p c) : p < c := by
  unfold ChildOf at h
  omega

theorem ChildOf.parent (h : ChildOf p c) (h' : ChildOf i c) : p = i := by
  unfold ChildOf at h h'
  omega

/-- No element from `start` on precedes a child below `count`. -/
def HeapFrom (lt : β → β → Prop) (a : ℕ → β) (start count : ℕ) : Prop :=
  ∀ p c, start ≤ p → ChildOf p c → c < count → ¬lt (a p) (a c)

/-- A heap except for the children of the hole, which their grandparent does not precede. -/
structure HoleAt (lt : β → β → Prop) (a : ℕ → β) (start hole count : ℕ) : Prop where
  others : ∀ p c, start ≤ p → p ≠ hole → ChildOf p c → c < count → ¬lt (a p) (a c)
  grand : ∀ p c, start ≤ p → ChildOf p hole → ChildOf hole c → c < count → ¬lt (a p) (a c)

/-- No child of `hole` comes behind its child `c`. -/
structure LargestChild (lt : β → β → Prop) (a : ℕ → β) (hole c count : ℕ) : Prop where
  child : ChildOf hole c
  inside : c < count
  largest : ∀ d, ChildOf hole d → d < count → ¬lt (a c) (a d)

theorem heapFrom_half (lt : β → β → Prop) (a : ℕ → β) (count : ℕ) :
    HeapFrom lt a (count / 2) count := by
  intro p c hp hc hlt
  unfold ChildOf at hc
  omega

theorem HeapFrom.holeAt (h : HeapFrom lt a (start + 1) count) : HoleAt lt a start start count := by
  refine ⟨fun p c hp hne => h p c (Nat.lt_of_le_of_ne hp (Ne.symm hne)), fun p c hp hchild => ?_⟩
  exact absurd hchild.below (Nat.not_lt_of_le hp)

/-- The root of a heap may be exchanged for any other element. -/
theorem HeapFrom.root (h : HeapFrom lt a 0 count) (hb : ∀ k, 0 < k → k < count → b k = a k) :
    HoleAt lt b 0 0 count := by
  refine ⟨fun p c hp hne hchild hc => ?_, fun p c _ hchild => ?_⟩
  · rw [hb p (Nat.pos_of_ne_zero hne) (hchild.below.trans hc),
      hb c (Nat.zero_lt_of_lt hchild.below) hc]
    exact h p c hp hchild hc
  · exact absurd hchild.below (Nat.not_lt_zero p)

theorem HeapFrom.of_le {n : ℕ} (h : HeapFrom lt a start count) (hn : n ≤ count) :
    HeapFrom lt a start n := fun p c hp hchild hc => h p c hp hchild (hc.trans_le hn)

theorem HoleAt.bottom (h : HoleAt lt a start hole count) (hn : count ≤ 2 * hole + 1) :
    HeapFrom lt a start count := by
  intro p c hp hchild hc
  refine h.others p c hp ?_ hchild hc
  rintro rfl
  unfold ChildOf at hchild
  omega

section Order

variable [IsStrictWeakOrder β lt]

theorem not_lt_trans {x y z : β} (hxy : ¬lt x y) (hyz : ¬lt y z) : ¬lt x z := by
  intro hxz
  by_cases hyx : lt y x
  · exact hyz (IsTrans.trans y x z hyx hxz)
  · by_cases hzy : lt z y
    · exact hxy (IsTrans.trans x z y hxz hzy)
    · exact (IsStrictWeakOrder.incomp_trans x y z ⟨hxy, hyx⟩ ⟨hyz, hzy⟩).1 hxz

theorem lt_asymm_of {x y : β} (hxy : lt x y) : ¬lt y x := fun hyx =>
  Std.Irrefl.irrefl (r := lt) x (IsTrans.trans x y x hxy hyx)

/-- Two comparisons at most find the largest child. -/
theorem LargestChild.of_compare {right : Bool} (hleft : 2 * hole + 1 < count)
    (hr : right = true → 2 * hole + 2 < count ∧ lt (a (2 * hole + 1)) (a (2 * hole + 2)))
    (hl : right = false → 2 * hole + 2 < count → ¬lt (a (2 * hole + 1)) (a (2 * hole + 2))) :
    LargestChild lt a hole (if right then 2 * hole + 2 else 2 * hole + 1) count := by
  cases right with
  | true =>
    obtain ⟨hin, hlt⟩ := hr rfl
    refine ⟨.inr rfl, hin, ?_⟩
    rintro d (rfl | rfl) -
    · exact lt_asymm_of hlt
    · exact Std.Irrefl.irrefl (r := lt) _
  | false =>
    refine ⟨.inl rfl, hleft, ?_⟩
    rintro d (rfl | rfl) hd
    · exact Std.Irrefl.irrefl (r := lt) _
    · exact hl rfl hd

/-- The hole has sunk to its largest child. -/
theorem HoleAt.sink (h : HoleAt lt a start hole count) (hl : LargestChild lt a hole c count)
    (hlt : lt (a hole) (a c)) : HoleAt lt (a ∘ Equiv.swap hole c) start c count := by
  have hhole : (a ∘ Equiv.swap hole c) hole = a c := congrArg a (Equiv.swap_apply_left hole c)
  have hchild : (a ∘ Equiv.swap hole c) c = a hole := congrArg a (Equiv.swap_apply_right hole c)
  have hother : ∀ k, k ≠ hole → k ≠ c → (a ∘ Equiv.swap hole c) k = a k := fun k hk hkc =>
    congrArg a (Equiv.swap_apply_of_ne_of_ne hk hkc)
  have hlt' := hl.child.below
  -- the new root of the triple is the largest of it, and its parent is bounded by `grand`
  refine ⟨fun p d hp hpc hpd hd => ?_, fun p d hp hpc hcd hd => ?_⟩
  · by_cases hph : p = hole
    · subst hph
      rw [hhole]
      by_cases hdc : d = c
      · rw [hdc, hchild]
        exact lt_asymm_of hlt
      · rw [hother d (Nat.ne_of_gt hpd.below) hdc]
        exact hl.largest d hpd hd
    · rw [hother p hph hpc]
      by_cases hdh : d = hole
      · rw [hdh, hhole]
        exact h.grand p c hp (hdh ▸ hpd) hl.child hl.inside
      · have hdc : d ≠ c := fun hdc => hph (hpd.parent (hdc ▸ hl.child))
        rw [hother d hdh hdc]
        exact h.others p d hp hph hpd hd
  -- the grandparent of the new hole's children is the old hole, which now holds their parent
  · obtain rfl : p = hole := hpc.parent hl.child
    have hcd' := hcd.below
    rw [hhole, hother d (by omega) (by omega)]
    exact h.others c d (by omega) (by omega) hcd hd

/-- The hole stays where it is. -/
theorem HoleAt.settle (h : HoleAt lt a start hole count) (hl : LargestChild lt a hole c count)
    (hlt : ¬lt (a hole) (a c)) : HeapFrom lt a start count := by
  intro p d hp hpd hd
  by_cases hph : p = hole
  · subst hph
    exact not_lt_trans hlt (hl.largest d hpd hd)
  · exact h.others p d hp hph hpd hd

theorem HeapFrom.root_largest (h : HeapFrom lt a 0 count) (hi : i < count) : ¬lt (a 0) (a i) := by
  -- along the path from `i` to the root no element precedes the one before
  induction i using Nat.strong_induction_on with
  | _ i ih =>
    obtain rfl | hpos := Nat.eq_zero_or_pos i
    · exact Std.Irrefl.irrefl (r := lt) (a 0)
    · have hchild : ChildOf ((i - 1) / 2) i := by
        unfold ChildOf
        omega
      have hp := hchild.below
      exact not_lt_trans (ih _ hp (hp.trans hi)) (h _ i (Nat.zero_le _) hchild hi)

end Order

/-! ## The elements that are in place -/

/-- The elements from `e` on, below `count`, are in their final order. -/
def SortedFrom (lt : β → β → Prop) (a : ℕ → β) (e count : ℕ) : Prop :=
  ∀ i j, i < j → e ≤ j → j < count → ¬lt (a j) (a i)

theorem sortedFrom_end (lt : β → β → Prop) (a : ℕ → β) (count : ℕ) : SortedFrom lt a count count :=
  fun _ _ _ hle hlt => absurd hlt (Nat.not_lt_of_le hle)

theorem SortedFrom.rearranged {e : ℕ} (h : SortedFrom lt a e count) (hr : Rearranged e a b) :
    SortedFrom lt b e count := by
  obtain ⟨σ, hσ, rfl⟩ := hr
  intro i j hij hj hlt
  change ¬lt (a (σ j)) (a (σ i))
  rw [hσ j hj]
  refine h (σ i) j ?_ hj hlt
  by_cases hi : i < e
  · exact (Rearranged.lt_of_lt hσ hi).trans_le hj
  · rw [hσ i (Nat.le_of_not_lt hi)]
    exact hij

/-- The root of the heap goes to its end. -/
theorem SortedFrom.extract [IsStrictWeakOrder β lt] {e : ℕ} (h : SortedFrom lt a (e + 1) count)
    (hheap : HeapFrom lt a 0 (e + 1)) :
    SortedFrom lt (a ∘ Equiv.swap 0 e) e count := by
  -- the exchange is below `e + 1`, so only the new place `e` is to be compared
  have hmoved := h.rearranged (Rearranged.swap a (Nat.succ_pos e) (Nat.lt_succ_self e))
  intro i j hij hj hlt
  obtain rfl | hgt := Nat.eq_or_lt_of_le hj
  · change ¬lt (a (Equiv.swap 0 e e)) (a (Equiv.swap 0 e i))
    rw [Equiv.swap_apply_right]
    refine hheap.root_largest ?_
    by_cases h0 : i = 0
    · rw [h0, Equiv.swap_apply_left]
      exact Nat.lt_succ_self e
    · rw [Equiv.swap_apply_of_ne_of_ne h0 (Nat.ne_of_lt hij)]
      exact hij.trans (Nat.lt_succ_self e)
  · exact hmoved i j hij hgt hlt

theorem SortedFrom.pairwise (h : SortedFrom lt a 1 count) :
    ((List.range count).map a).Pairwise fun x y => ¬lt y x := by
  rw [List.pairwise_map]
  refine List.pairwise_lt_range.imp_of_mem fun {i j} _ hj hij => ?_
  exact h i j hij (Nat.succ_le_of_lt (Nat.zero_lt_of_lt hij)) (List.mem_range.mp hj)

end CCForge
