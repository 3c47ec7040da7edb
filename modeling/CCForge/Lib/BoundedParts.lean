import Mathlib.Algebra.BigOperators.Group.List.Basic
import Mathlib.Algebra.Order.BigOperators.Group.List
import Mathlib.Algebra.Order.Ring.Nat

/-!
# Sums of bounded parts

`k` parts between `lo` and `hi` have a given sum if and only if it lies between `k * lo` and
`k * hi`. The parts are chosen greedily, and each leaves `lo` for every later one.
-/

namespace CCForge

variable {lo hi k s : ℕ} {l : List ℕ}

/-- Every part is between `lo` and `hi`. -/
def Parts (lo hi : ℕ) (l : List ℕ) : Prop := ∀ x ∈ l, lo ≤ x ∧ x ≤ hi

theorem Parts.sum_ge (h : Parts lo hi l) : l.length * lo ≤ l.sum := by
  simpa using List.card_nsmul_le_sum l lo fun x hx => (h x hx).1

theorem Parts.sum_le (h : Parts lo hi l) : l.sum ≤ l.length * hi := by
  simpa using List.sum_le_card_nsmul l hi fun x hx => (h x hx).2

/-- The greedy choice of `k` parts with the sum `s`. -/
def greedyParts (lo hi : ℕ) : ℕ → ℕ → List ℕ
  | 0, _ => []
  -- `k` parts are still to come, each with at least `lo`
  | k + 1, s =>
    let x := min hi (s - k * lo)
    x :: greedyParts lo hi k (s - x)

@[simp] theorem greedyParts_length (lo hi k s : ℕ) : (greedyParts lo hi k s).length = k := by
  induction k generalizing s with
  | zero => rfl
  | succ k ih => rw [greedyParts, List.length_cons, ih]

/-- The first part is legal, and the others can make up the rest. -/
theorem greedy_bounds (hmax : lo ≤ hi) (hle : (k + 1) * lo ≤ s) (hge : s ≤ (k + 1) * hi) :
    lo ≤ min hi (s - k * lo) ∧ k * lo ≤ s - min hi (s - k * lo) ∧
      s - min hi (s - k * lo) ≤ k * hi := by
  have hmul : (k + 1) * lo = k * lo + lo := Nat.succ_mul k lo
  have hmul' : (k + 1) * hi = k * hi + hi := Nat.succ_mul k hi
  have hmono : k * lo ≤ k * hi := Nat.mul_le_mul_left k hmax
  omega

theorem greedyParts_parts (hmax : lo ≤ hi) (hle : k * lo ≤ s) (hge : s ≤ k * hi) :
    Parts lo hi (greedyParts lo hi k s) := by
  induction k generalizing s with
  | zero => exact fun x hx => absurd hx List.not_mem_nil
  | succ k ih =>
    obtain ⟨hfirst, hrest, hfit⟩ := greedy_bounds hmax hle hge
    intro x hx
    obtain rfl | hx := List.mem_cons.mp hx
    · exact ⟨hfirst, Nat.min_le_left _ _⟩
    · exact ih hrest hfit x hx

theorem greedyParts_sum (hmax : lo ≤ hi) (hle : k * lo ≤ s) (hge : s ≤ k * hi) :
    (greedyParts lo hi k s).sum = s := by
  induction k generalizing s with
  | zero =>
    rw [Nat.zero_mul] at hge
    exact (Nat.le_zero.mp hge).symm
  | succ k ih =>
    obtain ⟨-, hrest, hfit⟩ := greedy_bounds hmax hle hge
    have hfirst : min hi (s - k * lo) ≤ s := (Nat.min_le_right _ _).trans (Nat.sub_le _ _)
    rw [greedyParts, List.sum_cons, ih hrest hfit, Nat.add_sub_cancel' hfirst]

/-- The number of parts of the size `hi` that make up `s`, the last one perhaps not whole. -/
def partsNeeded (hi s : ℕ) : ℕ := s / hi + if s % hi ≠ 0 then 1 else 0

theorem le_partsNeeded_mul (s : ℕ) (hpos : 0 < hi) : s ≤ partsNeeded hi s * hi := by
  have hdiv := Nat.div_add_mod s hi
  have hmod := Nat.mod_lt s hpos
  rw [Nat.mul_comm] at hdiv
  unfold partsNeeded
  split
  · rw [Nat.succ_mul]
    omega
  · rw [Nat.add_zero]
    omega

theorem partsNeeded_le (hs : s ≤ k * hi) : partsNeeded hi s ≤ k := by
  have hdiv := Nat.div_add_mod s hi
  have hquot : s / hi ≤ k := Nat.div_le_of_le_mul (Nat.mul_comm k hi ▸ hs)
  unfold partsNeeded
  split
  -- with a remainder `k` whole parts would be too few
  · next hrem =>
    refine Nat.succ_le_of_lt (Nat.lt_of_le_of_ne hquot ?_)
    rintro rfl
    rw [Nat.mul_comm] at hdiv
    omega
  · exact hquot

/-- No fewer parts make up `s`. -/
theorem Parts.partsNeeded_le (h : Parts lo hi l) (hs : s ≤ l.sum) :
    partsNeeded hi s ≤ l.length :=
  CCForge.partsNeeded_le (hs.trans h.sum_le)

/-- A list of parts that makes up `need`, but not more than `room`, exists if and only if the least
number of parts does not need more than `room`. -/
theorem exists_parts_iff {need room : ℕ} (hpos : 0 < hi) (hmax : lo ≤ hi) (hneed : need ≤ room) :
    (∃ l, Parts lo hi l ∧ need ≤ l.sum ∧ l.sum ≤ room) ↔ partsNeeded hi need * lo ≤ room := by
  constructor
  · rintro ⟨l, hl, hs, hr⟩
    exact ((Nat.mul_le_mul_right lo (hl.partsNeeded_le hs)).trans hl.sum_ge).trans hr
  · intro hr
    -- the least number of parts, with the least sum that covers `need`
    have hupper : max need (partsNeeded hi need * lo) ≤ partsNeeded hi need * hi :=
      Nat.max_le.mpr ⟨le_partsNeeded_mul need hpos, Nat.mul_le_mul_left _ hmax⟩
    have hsum := greedyParts_sum hmax (Nat.le_max_right need _) hupper
    refine ⟨_, greedyParts_parts hmax (Nat.le_max_right need _) hupper, ?_, ?_⟩
    · rw [hsum]
      exact Nat.le_max_left _ _
    · rw [hsum]
      exact Nat.max_le.mpr ⟨hneed, hr⟩

end CCForge
