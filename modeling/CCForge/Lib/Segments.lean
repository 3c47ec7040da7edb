import Mathlib.Algebra.Order.BigOperators.Group.Finset

/-!
# Segments laid end to end

Segment `a` has `len a` places. Laid one after another from 0 on, the places of the first `n`
segments are numbered by the numbers below `start len n`, each once, in lexicographic order.
-/

namespace CCForge.Segments

variable {len : ℕ → ℕ} {n a b a' b' k : ℕ}

/-- The number of the first place of a segment. -/
def start (len : ℕ → ℕ) (a : ℕ) : ℕ := ∑ k ∈ Finset.range a, len k

@[simp] theorem start_zero : start len 0 = 0 := Finset.sum_range_zero len

theorem start_succ : start len (a + 1) = start len a + len a := Finset.sum_range_succ len a

theorem start_mono (h : a ≤ a') : start len a ≤ start len a' :=
  Finset.sum_le_sum_of_subset (Finset.range_mono h)

/-- A place of an earlier segment comes before every place of a later one. -/
theorem place_lt_start (h : a < a') (hb : b < len a) : start len a + b < start len a' := by
  have hle : start len (a + 1) ≤ start len a' := start_mono h
  rw [start_succ] at hle
  omega

theorem place_lt (hb : b < len a) (h : a < a' ∨ a = a' ∧ b < b') :
    start len a + b < start len a' + b' := by
  obtain h | ⟨rfl, h⟩ := h
  · exact Nat.lt_of_lt_of_le (place_lt_start h hb) (Nat.le_add_right _ _)
  · exact Nat.add_lt_add_left h _

theorem place_injective (hb : b < len a) (hb' : b' < len a')
    (h : start len a + b = start len a' + b') : a = a' ∧ b = b' := by
  obtain hlt | rfl | hlt := Nat.lt_trichotomy a a'
  · exact absurd h (Nat.ne_of_lt (place_lt hb (.inl hlt)))
  · exact ⟨rfl, Nat.add_left_cancel h⟩
  · exact absurd h.symm (Nat.ne_of_lt (place_lt hb' (.inl hlt)))

theorem exists_place (hk : k < start len n) : ∃ a < n, ∃ b < len a, k = start len a + b := by
  induction n with
  | zero => rw [start_zero] at hk; omega
  | succ n ih =>
    by_cases hlt : k < start len n
    · obtain ⟨a, ha, hb⟩ := ih hlt
      exact ⟨a, Nat.lt_succ_of_lt ha, hb⟩
    · rw [start_succ] at hk
      exact ⟨n, Nat.lt_succ_self n, k - start len n, by omega, by omega⟩

end CCForge.Segments
