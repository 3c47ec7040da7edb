import Mathlib.Algebra.BigOperators.Group.Finset.Basic
import Mathlib.Algebra.BigOperators.Group.Finset.Piecewise
import Mathlib.Algebra.Order.BigOperators.Group.Multiset
import Mathlib.Data.Fintype.Basic
import Mathlib.Tactic.Abel

/-!
# What a finite family of parties holds together

Each party of a system is in some local state, and `g` says what a local state
contributes: a number, or the multiset of the items the party holds. A step
changes the local state of one party, so it changes the total by the difference
of that one contribution.
-/

namespace CCForge

open Function

variable {ι φ M : Type*} [Fintype ι] [AddCommMonoid M]

/-- The contributions of all parties together. -/
def total (g : φ → M) (f : ι → φ) : M := ∑ i, g (f i)

theorem total_of_zero {g : φ → M} {f : ι → φ} (h : ∀ i, g (f i) = 0) : total g f = 0 :=
  Finset.sum_eq_zero fun i _ => h i

variable [DecidableEq ι]

/-- One party moves from `f i` to `x`. -/
theorem total_update (g : φ → M) (f : ι → φ) (i : ι) (x : φ) :
    total g (update f i x) + g (f i) = total g f + g x := by
  have hrest : ∑ j ∈ Finset.univ.erase i, g (update f i x j) =
      ∑ j ∈ Finset.univ.erase i, g (f j) := by
    apply Finset.sum_congr rfl
    intro j hj
    rw [update_of_ne (Finset.ne_of_mem_erase hj)]
  have hnew := Finset.add_sum_erase Finset.univ (fun j => g (update f i x j)) (Finset.mem_univ i)
  have hold := Finset.add_sum_erase Finset.univ (fun j => g (f j)) (Finset.mem_univ i)
  simp only [update_self] at hnew
  rw [total, total, ← hnew, ← hold, hrest]
  abel

/-- A step that keeps the contribution of its party keeps the total. -/
theorem total_update_same {g : φ → M} {f : ι → φ} {i : ι} {x : φ} (h : g x = g (f i)) :
    total g (update f i x) = total g f := by
  apply Finset.sum_congr rfl
  intro j _
  by_cases hj : j = i
  · subst hj
    rw [update_self, h]
  · rw [update_of_ne hj]

/-- A party that held nothing takes the contribution of `x`. -/
theorem total_update_of_zero {g : φ → M} {f : ι → φ} {i : ι} {x : φ} (h : g (f i) = 0) :
    total g (update f i x) = total g f + g x := by
  have hu := total_update g f i x
  rwa [h, add_zero] at hu

/-- A party gives up all that it held. -/
theorem total_update_to_zero {g : φ → M} {f : ι → φ} {i : ι} {x : φ} (h : g x = 0) :
    total g (update f i x) + g (f i) = total g f := by
  rw [total_update, h, add_zero]

omit [DecidableEq ι] in
theorem mem_total {α : Type*} {g : φ → Multiset α} {f : ι → φ} {a : α} :
    a ∈ total g f ↔ ∃ i, a ∈ g (f i) := by
  simp [total, Multiset.mem_sum]

omit [DecidableEq ι] in
/-- The parties with `p` hold one item each, the others none. -/
theorem card_total {α : Type*} {g : φ → Multiset α} {p : φ → Bool}
    (h : ∀ x, Multiset.card (g x) = if p x = true then 1 else 0) (f : ι → φ) :
    Multiset.card (total g f) = (Finset.univ.filter fun i => p (f i) = true).card := by
  rw [total, ← Multiset.cardHom_apply, map_sum, Finset.card_filter]
  exact Finset.sum_congr rfl fun i _ => h (f i)

omit [DecidableEq ι] in
theorem total_eq_zero_iff {α : Type*} {g : φ → Multiset α} {f : ι → φ} :
    total g f = 0 ↔ ∀ i, g (f i) = 0 := by
  simp only [Multiset.eq_zero_iff_forall_notMem, mem_total, not_exists]
  exact forall_comm

/-! ## Parties in a list -/

/-- The contributions of the listed parties, of which there may be more and more. -/
def census (g : φ → ℕ) (f : ι → φ) (l : List ι) : ℕ := (l.map fun i => g (f i)).sum

omit [Fintype ι] in
theorem census_update_of_notMem {g : φ → ℕ} {f : ι → φ} {i : ι} {x : φ} {l : List ι} (h : i ∉ l) :
    census g (update f i x) l = census g f l := by
  unfold census
  congr 1
  apply List.map_congr_left
  intro j hj
  have hne : j ≠ i := by
    rintro rfl
    exact h hj
  rw [update_of_ne hne]

omit [Fintype ι] in
theorem census_update {g : φ → ℕ} {f : ι → φ} {i : ι} {x : φ} {l : List ι} (hn : l.Nodup)
    (hm : i ∈ l) : census g (update f i x) l + g (f i) = census g f l + g x := by
  induction l with
  | nil => cases hm
  | cons j l ih =>
    obtain ⟨hj, hn⟩ := List.nodup_cons.mp hn
    have hcons : ∀ h : ι → φ, census g h (j :: l) = g (h j) + census g h l := fun _ => rfl
    rw [hcons, hcons]
    rcases List.mem_cons.mp hm with rfl | hm
    · rw [update_self, census_update_of_notMem hj]
      omega
    · have hne : j ≠ i := by
        rintro rfl
        exact hj hm
      rw [update_of_ne hne]
      have hi := ih hn hm
      omega

omit [Fintype ι] in
theorem census_erase {g : φ → ℕ} {f : ι → φ} {i : ι} {l : List ι} (hm : i ∈ l) :
    census g f (l.erase i) + g (f i) = census g f l := by
  have hsum := List.sum_map_erase (fun j => g (f j)) hm
  unfold census
  omega

end CCForge
