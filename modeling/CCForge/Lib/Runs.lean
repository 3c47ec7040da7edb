import Mathlib.Data.Set.Insert
import Mathlib.Data.Nat.Find

/-!
# Maximal runs of a set of natural numbers

A run is a maximal interval inside a set. What matters is how the runs change when
one point joins the set and when a run loses its first point or disappears.
-/

namespace CCForge

/-- `n` consecutive members of `D` from `a` on, with no member on either side. -/
structure IsRun (D : Set ℕ) (a n : ℕ) : Prop where
  pos : 0 < n
  mem : ∀ i, a ≤ i → i < a + n → i ∈ D
  right : a + n ∉ D
  left : ∀ i, i + 1 = a → i ∉ D

namespace IsRun

variable {D : Set ℕ} {a b m n i l r : ℕ}

theorem start_mem (h : IsRun D a n) : a ∈ D := by
  have hpos := h.pos
  exact h.mem a (le_refl a) (by omega)

/-- Two runs that share a point are the same. -/
theorem eq_of_mem (h : IsRun D a n) (k : IsRun D b m) (h1 : a ≤ i) (h2 : i < a + n) (k1 : b ≤ i)
    (k2 : i < b + m) : a = b ∧ n = m := by
  have hab : a = b := by
    rcases lt_trichotomy a b with hlt | he | hlt
    · exact absurd (h.mem (b - 1) (by omega) (by omega)) (k.left (b - 1) (by omega))
    · exact he
    · exact absurd (k.mem (a - 1) (by omega) (by omega)) (h.left (a - 1) (by omega))
  subst hab
  refine ⟨rfl, ?_⟩
  rcases lt_trichotomy n m with hlt | he | hlt
  · exact absurd (k.mem (a + n) (by omega) (by omega)) h.right
  · exact he
  · exact absurd (h.mem (a + m) (by omega) (by omega)) k.right

theorem length_unique (h : IsRun D a n) (k : IsRun D a m) : n = m := by
  have hn := h.pos
  have hm := k.pos
  exact (h.eq_of_mem k (le_refl a) (by omega) (le_refl a) (by omega)).2

/-- Every member lies in a run, if the set is bounded. -/
theorem exists_of_mem (hi : i ∈ D) {N : ℕ} (hN : ∀ j, N ≤ j → j ∉ D) :
    ∃ a n, IsRun D a n ∧ a ≤ i ∧ i < a + n := by
  classical
  have hlast : ∃ e, i ≤ e ∧ e ∉ D := ⟨max i N, le_max_left _ _, hN _ (le_max_right _ _)⟩
  have hfirst : ∃ a, a ≤ i ∧ ∀ j, a ≤ j → j ≤ i → j ∈ D := by
    refine ⟨i, le_refl i, fun j h1 h2 => ?_⟩
    rw [show j = i by omega]
    exact hi
  obtain ⟨hie, he⟩ := Nat.find_spec hlast
  obtain ⟨hai, ha⟩ := Nat.find_spec hfirst
  have hmin : ∀ j, i ≤ j → j < Nat.find hlast → j ∈ D := by
    intro j h1 h2
    by_contra hj
    exact Nat.find_min hlast h2 ⟨h1, hj⟩
  have hne : Nat.find hlast ≠ i := fun h => he (by rw [h]; exact hi)
  refine ⟨Nat.find hfirst, Nat.find hlast - Nat.find hfirst, ⟨?_, ?_, ?_, ?_⟩, hai, ?_⟩
  · omega
  · intro j h1 h2
    by_cases hj : j ≤ i
    · exact ha j h1 hj
    · exact hmin j (by omega) (by omega)
  · rw [show Nat.find hfirst + (Nat.find hlast - Nat.find hfirst) = Nat.find hlast by omega]
    exact he
  · intro j hj hm
    have hlt : j < Nat.find hfirst := by omega
    refine Nat.find_min hfirst hlt ⟨by omega, fun k h1 h2 => ?_⟩
    by_cases hk : k = j
    · rw [hk]
      exact hm
    · exact ha k (by omega) h2
  · omega

/-- The `l` members directly before `i`. -/
def LeftOf (D : Set ℕ) (i l : ℕ) : Prop :=
  l ≤ i ∧ (∀ j, i - l ≤ j → j < i → j ∈ D) ∧ ∀ j, j + 1 + l = i → j ∉ D

/-- The `r` members directly after `i`. -/
def RightOf (D : Set ℕ) (i r : ℕ) : Prop :=
  (∀ j, i < j → j ≤ i + r → j ∈ D) ∧ i + r + 1 ∉ D

theorem leftOf_zero (h : ∀ j, j + 1 = i → j ∉ D) : LeftOf D i 0 :=
  ⟨Nat.zero_le i, fun j h1 h2 => by omega, fun j hj => h j (by omega)⟩

theorem leftOf (h : IsRun D a n) (hi : a + n = i) : LeftOf D i n :=
  ⟨by omega, fun j h1 h2 => h.mem j (by omega) (by omega), fun j hj => h.left j (by omega)⟩

theorem rightOf_zero (h : i + 1 ∉ D) : RightOf D i 0 := ⟨fun j h1 h2 => by omega, h⟩

theorem rightOf (h : IsRun D (i + 1) n) : RightOf D i n := by
  refine ⟨fun j h1 h2 => h.mem j (by omega) (by omega), ?_⟩
  rw [show i + n + 1 = i + 1 + n by omega]
  exact h.right

theorem insert_run (hl : LeftOf D i l) (hr : RightOf D i r) :
    IsRun (insert i D) (i - l) (l + r + 1) := by
  obtain ⟨hle, hl, hl'⟩ := hl
  obtain ⟨hr, hr'⟩ := hr
  refine ⟨by omega, ?_, ?_, ?_⟩
  · intro j h1 h2
    rcases lt_trichotomy j i with hj | hj | hj
    · exact Set.mem_insert_of_mem i (hl j h1 hj)
    · exact Set.mem_insert_iff.mpr (.inl hj)
    · exact Set.mem_insert_of_mem i (hr j hj (by omega))
  · rw [show i - l + (l + r + 1) = i + r + 1 by omega]
    rintro (h | h)
    · omega
    · exact hr' h
  · intro j hj
    rintro (h | h)
    · omega
    · exact hl' j (by omega) h

/-- The runs after `i` joined the set: the one around `i`, and those that do not touch it. -/
theorem insert_iff (hl : LeftOf D i l) (hr : RightOf D i r) :
    IsRun (insert i D) b m ↔
      (b = i - l ∧ m = l + r + 1) ∨ (IsRun D b m ∧ (b + m < i ∨ i + 1 < b)) := by
  have hrun := insert_run hl hr
  constructor
  · intro h
    by_cases hin : b ≤ i ∧ i < b + m
    · left
      exact h.eq_of_mem hrun hin.1 hin.2 (by omega) (by have := hl.1; omega)
    · right
      have hend : b + m ≠ i := fun he => h.right (by rw [he]; exact Set.mem_insert i D)
      have hstart : b ≠ i + 1 := fun he => h.left i he.symm (Set.mem_insert i D)
      refine ⟨⟨h.pos, ?_, ?_, ?_⟩, by omega⟩
      · intro j h1 h2
        rcases h.mem j h1 h2 with hj | hj
        · omega
        · exact hj
      · exact fun hm => h.right (Set.mem_insert_of_mem i hm)
      · exact fun j hj hm => h.left j hj (Set.mem_insert_of_mem i hm)
  · rintro (⟨rfl, rfl⟩ | ⟨h, hout⟩)
    · exact hrun
    · refine ⟨h.pos, fun j h1 h2 => Set.mem_insert_of_mem i (h.mem j h1 h2), ?_, ?_⟩
      · rintro (he | hm)
        · omega
        · exact h.right hm
      · rintro j hj (he | hm)
        · omega
        · exact h.left j hj hm

/-- The runs after the run at `a` lost its first point. -/
theorem drop_first_iff (h : IsRun D a n) :
    IsRun (D \ {a}) b m ↔ (b = a + 1 ∧ m + 1 = n ∧ 0 < m) ∨ (IsRun D b m ∧ b ≠ a) := by
  have hpos := h.pos
  have hmem : ∀ j, j ∈ D \ {a} ↔ j ∈ D ∧ j ≠ a := by simp
  constructor
  · intro k
    have hkpos := k.pos
    have hb := (hmem b).mp k.start_mem
    by_cases hin : a ≤ b ∧ b < a + n
    · left
      have hba : b = a + 1 := by
        by_contra hne
        refine k.left (b - 1) (by omega) ((hmem _).mpr ⟨h.mem _ (by omega) (by omega), by omega⟩)
      have hrest : IsRun (D \ {a}) (a + 1) (n - 1) := by
        refine ⟨by omega, fun j h1 h2 => (hmem j).mpr ⟨h.mem j (by omega) (by omega), by omega⟩,
          ?_, ?_⟩
        · rw [show a + 1 + (n - 1) = a + n by omega]
          exact fun hm => h.right ((hmem _).mp hm).1
        · intro j hj hm
          exact ((hmem j).mp hm).2 (by omega)
      rw [hba] at k
      have hlen := k.length_unique hrest
      omega
    · right
      refine ⟨⟨hkpos, fun j h1 h2 => ((hmem j).mp (k.mem j h1 h2)).1, ?_, ?_⟩, hb.2⟩
      · intro hm
        by_cases he : b + m = a
        · exact h.left (a - 1) (by omega) ((hmem _).mp (k.mem (a - 1) (by omega) (by omega))).1
        · exact k.right ((hmem _).mpr ⟨hm, he⟩)
      · intro j hj hm
        by_cases he : j = a
        · have hlt : b < a + n := by
            by_contra hge
            have heq : b = a + n := by omega
            exact h.right (by rw [← heq]; exact hb.1)
          omega
        · exact k.left j hj ((hmem j).mpr ⟨hm, he⟩)
  · rintro (⟨rfl, rfl, hm⟩ | ⟨k, hne⟩)
    · refine ⟨hm, fun j h1 h2 => (hmem j).mpr ⟨h.mem j (by omega) (by omega), by omega⟩, ?_, ?_⟩
      · rw [show a + 1 + m = a + (m + 1) by omega]
        exact fun hx => h.right ((hmem _).mp hx).1
      · intro j hj hx
        exact ((hmem j).mp hx).2 (by omega)
    · have hkpos := k.pos
      refine ⟨hkpos, fun j h1 h2 => (hmem j).mpr ⟨k.mem j h1 h2, ?_⟩, ?_, ?_⟩
      · rintro rfl
        exact hne (k.eq_of_mem h h1 h2 (le_refl j) (by omega)).1
      · exact fun hx => k.right ((hmem _).mp hx).1
      · exact fun j hj hx => k.left j hj ((hmem j).mp hx).1

/-- The runs after the run at `a` disappeared. -/
theorem remove_iff (h : IsRun D a n) {E : Set ℕ}
    (hE : ∀ j, j ∈ E ↔ j ∈ D ∧ ¬(a ≤ j ∧ j < a + n)) : IsRun E b m ↔ IsRun D b m ∧ b ≠ a := by
  have hpos := h.pos
  constructor
  · intro k
    have hkpos := k.pos
    have hb := (hE b).mp k.start_mem
    refine ⟨⟨hkpos, fun j h1 h2 => ((hE j).mp (k.mem j h1 h2)).1, ?_, ?_⟩, by omega⟩
    · intro hm
      refine k.right ((hE _).mpr ⟨hm, fun hin => ?_⟩)
      have hlast := (hE (b + m - 1)).mp (k.mem _ (by omega) (by omega))
      have heq : b + m = a := by omega
      exact h.left (b + m - 1) (by omega) hlast.1
    · intro j hj hm
      refine k.left j hj ((hE j).mpr ⟨hm, fun hin => ?_⟩)
      have heq : b = a + n := by omega
      exact h.right (by rw [← heq]; exact hb.1)
  · rintro ⟨k, hne⟩
    have hdis : ∀ j, b ≤ j → j < b + m → ¬(a ≤ j ∧ j < a + n) := fun j h1 h2 hin =>
      hne (k.eq_of_mem h h1 h2 hin.1 hin.2).1
    refine ⟨k.pos, fun j h1 h2 => (hE j).mpr ⟨k.mem j h1 h2, hdis j h1 h2⟩, ?_, ?_⟩
    · exact fun hx => k.right ((hE _).mp hx).1
    · exact fun j hj hx => k.left j hj ((hE j).mp hx).1

end IsRun

end CCForge
