import Mathlib.Data.List.Nodup
import Mathlib.Logic.Equiv.Basic
import Mathlib.Logic.Function.Basic

/-!
# Custody of numbered things

Things are numbered as they are made. Each place holds at most one, and a thing leaves the
places when it is given up. In a custody, everything made is held at one place or was given
up once.
-/

namespace CCForge

variable {ι : Type*}

structure Custody (held : ι → Option ℕ) (made : ℕ) (gone : List ℕ) : Prop where
  lt : ∀ i n, held i = some n → n < made
  kept : ∀ i n, held i = some n → n ∉ gone
  unique : ∀ i j n, held i = some n → held j = some n → i = j
  nodup : gone.Nodup
  gone_lt : ∀ n ∈ gone, n < made
  accounted : ∀ n < made, n ∈ gone ∨ ∃ i, held i = some n

namespace Custody

variable {held : ι → Option ℕ} {made : ℕ} {gone : List ℕ}

theorem empty : Custody (fun _ : ι => none) 0 [] where
  lt := by simp
  kept := by simp
  unique := by simp
  nodup := List.nodup_nil
  gone_lt := by simp
  accounted := by simp

/-- What was given up is exactly what was made and is held nowhere. -/
theorem mem_gone_iff (h : Custody held made gone) (n : ℕ) :
    n ∈ gone ↔ n < made ∧ ∀ i, held i ≠ some n := by
  constructor
  · intro hn
    exact ⟨h.gone_lt n hn, fun i hi => h.kept i n hi hn⟩
  · rintro ⟨hn, hi⟩
    obtain hg | ⟨i, hh⟩ := h.accounted n hn
    · exact hg
    · exact absurd hh (hi i)

theorem congr {held' : ι → Option ℕ} (h : Custody held made gone) (he : held' = held) :
    Custody held' made gone := he ▸ h

variable [DecidableEq ι] {i j : ι} {n : ℕ}

/-- A new thing is made at a place that holds none. -/
theorem make (h : Custody held made gone) (hi : held i = none) :
    Custody (Function.update held i (some made)) (made + 1) gone := by
  have hcase : ∀ k m, Function.update held i (some made) k = some m →
      (k = i ∧ m = made) ∨ (k ≠ i ∧ held k = some m) := by
    intro k m hk
    by_cases hki : k = i
    · subst hki
      rw [Function.update_self] at hk
      exact .inl ⟨rfl, (Option.some.inj hk).symm⟩
    · rw [Function.update_of_ne hki] at hk
      exact .inr ⟨hki, hk⟩
  refine ⟨?_, ?_, ?_, h.nodup, fun m hm => Nat.lt_succ_of_lt (h.gone_lt m hm), ?_⟩
  · intro k m hk
    obtain ⟨-, rfl⟩ | ⟨-, hk⟩ := hcase k m hk
    · exact Nat.lt_succ_self _
    · exact Nat.lt_succ_of_lt (h.lt k m hk)
  · intro k m hk
    obtain ⟨-, rfl⟩ | ⟨-, hk⟩ := hcase k m hk
    · exact fun hm => Nat.lt_irrefl _ (h.gone_lt _ hm)
    · exact h.kept k m hk
  · intro k l m hk hl
    obtain ⟨hki, hm⟩ | ⟨-, hk'⟩ := hcase k m hk
    · obtain ⟨hli, -⟩ | ⟨-, hl'⟩ := hcase l m hl
      · rw [hki, hli]
      · exact absurd (h.lt l m hl') (hm ▸ Nat.lt_irrefl _)
    · obtain ⟨-, hm⟩ | ⟨-, hl'⟩ := hcase l m hl
      · exact absurd (h.lt k m hk') (hm ▸ Nat.lt_irrefl _)
      · exact h.unique k l m hk' hl'
  · intro m hm
    obtain hm | rfl := Nat.lt_succ_iff_lt_or_eq.mp hm
    · obtain hg | ⟨k, hk⟩ := h.accounted m hm
      · exact .inl hg
      · refine .inr ⟨k, ?_⟩
        rw [Function.update_of_ne, hk]
        rintro rfl
        simp [hi] at hk
    · exact .inr ⟨i, Function.update_self _ _ _⟩

/-- The thing at a place is given up. -/
theorem drop (h : Custody held made gone) (hi : held i = some n) :
    Custody (Function.update held i none) made (gone ++ [n]) := by
  have hcase : ∀ k m, Function.update held i none k = some m → k ≠ i ∧ held k = some m := by
    intro k m hk
    by_cases hki : k = i
    · subst hki
      simp at hk
    · rw [Function.update_of_ne hki] at hk
      exact ⟨hki, hk⟩
  refine ⟨fun k m hk => h.lt k m (hcase k m hk).2, ?_,
    fun k l m hk hl => h.unique k l m (hcase k m hk).2 (hcase l m hl).2, ?_, ?_, ?_⟩
  · intro k m hk hm
    obtain ⟨hki, hk⟩ := hcase k m hk
    rw [List.mem_append, List.mem_singleton] at hm
    obtain hm | rfl := hm
    · exact h.kept k m hk hm
    · exact hki (h.unique k i m hk hi)
  · rw [List.nodup_append]
    refine ⟨h.nodup, List.nodup_singleton n, ?_⟩
    rintro a ha b hb rfl
    rw [List.mem_singleton] at hb
    subst hb
    exact h.kept i a hi ha
  · intro m hm
    rw [List.mem_append, List.mem_singleton] at hm
    obtain hm | rfl := hm
    · exact h.gone_lt m hm
    · exact h.lt i m hi
  · intro m hm
    obtain hg | ⟨k, hk⟩ := h.accounted m hm
    · exact .inl (List.mem_append_left _ hg)
    · by_cases hki : k = i
      · subst hki
        rw [hi] at hk
        cases hk
        exact .inl (List.mem_append_right _ (List.mem_singleton_self _))
      · exact .inr ⟨k, by rw [Function.update_of_ne hki, hk]⟩

omit [DecidableEq ι] in
/-- A new thing is given up at once. -/
theorem make_drop (h : Custody held made gone) : Custody held (made + 1) (gone ++ [made]) := by
  refine ⟨fun k m hk => Nat.lt_succ_of_lt (h.lt k m hk), fun k m hk hm => ?_, h.unique, ?_, fun m hm => ?_,
    fun m hm => ?_⟩
  · rcases List.mem_append.mp hm with hm | hm
    · exact h.kept k m hk hm
    · rw [List.mem_singleton] at hm
      exact absurd (h.lt k m hk) (hm ▸ Nat.lt_irrefl _)
  · refine List.nodup_append.mpr ⟨h.nodup, List.nodup_singleton _, ?_⟩
    rintro a ha b hb rfl
    rw [List.mem_singleton] at hb
    exact absurd (h.gone_lt a ha) (hb ▸ Nat.lt_irrefl _)
  · rcases List.mem_append.mp hm with hm | hm
    · exact Nat.lt_succ_of_lt (h.gone_lt m hm)
    · rw [List.mem_singleton] at hm
      exact hm ▸ Nat.lt_succ_self _
  · rcases Nat.lt_succ_iff_lt_or_eq.mp hm with hlt | rfl
    · rcases h.accounted m hlt with hg | hk
      · exact .inl (List.mem_append_left _ hg)
      · exact .inr hk
    · exact .inl (List.mem_append_right _ (List.mem_singleton_self _))

/-- The things at two places change places. -/
theorem swap (h : Custody held made gone) (i j : ι) :
    Custody (Function.update (Function.update held i (held j)) j (held i)) made gone := by
  have hcase (k : ι) : Function.update (Function.update held i (held j)) j (held i) k =
      held (Equiv.swap i j k) := by
    by_cases hkj : k = j
    · rw [hkj, Function.update_self, Equiv.swap_apply_right]
    · rw [Function.update_of_ne hkj]
      by_cases hki : k = i
      · rw [hki, Function.update_self, Equiv.swap_apply_left]
      · rw [Function.update_of_ne hki, Equiv.swap_apply_of_ne_of_ne hki hkj]
  refine ⟨fun k m hk => h.lt _ m ((hcase k).symm.trans hk), fun k m hk => h.kept _ m ((hcase k).symm.trans hk),
    fun k l m hk hl => ?_, h.nodup, h.gone_lt, fun m hm => ?_⟩
  · exact (Equiv.swap i j).injective (h.unique _ _ m ((hcase k).symm.trans hk) ((hcase l).symm.trans hl))
  · rcases h.accounted m hm with hg | ⟨k, hk⟩
    · exact .inl hg
    · refine .inr ⟨Equiv.swap i j k, ?_⟩
      rw [hcase, Equiv.swap_apply_self, hk]

/-- The thing at one place, where there is one, moves to a place that holds none. -/
theorem move (h : Custody held made gone) (hj : held j = none) (hij : i ≠ j) :
    Custody (Function.update (Function.update held j (held i)) i none) made gone := by
  have hcase : ∀ k m, Function.update (Function.update held j (held i)) i none k = some m →
      (k = j ∧ held i = some m) ∨ (k ≠ j ∧ k ≠ i ∧ held k = some m) := by
    intro k m hk
    by_cases hki : k = i
    · subst hki
      simp at hk
    rw [Function.update_of_ne hki] at hk
    by_cases hkj : k = j
    · subst hkj
      rw [Function.update_self] at hk
      exact .inl ⟨rfl, hk⟩
    · rw [Function.update_of_ne hkj] at hk
      exact .inr ⟨hkj, hki, hk⟩
  refine ⟨?_, ?_, ?_, h.nodup, h.gone_lt, ?_⟩
  · intro k m hk
    obtain ⟨-, hk⟩ | ⟨-, -, hk⟩ := hcase k m hk
    · exact h.lt i m hk
    · exact h.lt k m hk
  · intro k m hk
    obtain ⟨-, hk⟩ | ⟨-, -, hk⟩ := hcase k m hk
    · exact h.kept i m hk
    · exact h.kept k m hk
  · intro k l m hk hl
    obtain ⟨hkj, hk'⟩ | ⟨-, hki, hk'⟩ := hcase k m hk
    · obtain ⟨hlj, -⟩ | ⟨-, hli, hl'⟩ := hcase l m hl
      · rw [hkj, hlj]
      · exact absurd (h.unique l i m hl' hk') hli
    · obtain ⟨-, hl'⟩ | ⟨-, -, hl'⟩ := hcase l m hl
      · exact absurd (h.unique k i m hk' hl') hki
      · exact h.unique k l m hk' hl'
  · intro m hm
    obtain hg | ⟨k, hk⟩ := h.accounted m hm
    · exact .inl hg
    · by_cases hki : k = i
      · subst hki
        exact .inr ⟨j, by rw [Function.update_of_ne hij.symm, Function.update_self, hk]⟩
      · refine .inr ⟨k, ?_⟩
        rw [Function.update_of_ne hki, Function.update_of_ne, hk]
        rintro rfl
        simp [hj] at hk

end Custody

end CCForge
