import Mathlib.Algebra.BigOperators.Intervals
import Mathlib.Logic.Function.Basic

/-!
# Counting loops

A loop runs its body on a state for each index of an interval, upwards or downwards. An
invariant that the body takes from one index to the next holds at the end. Two kinds of body
have a closed form: one that adds to a sum, and one that writes a cell of a store.
-/

namespace CCForge.Loops

variable {σ τ ι κ R : Type*} {lo hi n : ℕ} {body : ℕ → σ → σ} {s : σ}

/-- `for (i = lo; i < hi; ++i) body(i);` -/
def forUp (lo hi : ℕ) (body : ℕ → σ → σ) (s : σ) : σ :=
  (List.range' lo (hi - lo)).foldl (fun s i => body i s) s

/-- `for (i = n; i-- > 0; ) body(i);` -/
def forDown : ℕ → (ℕ → σ → σ) → σ → σ
  | 0, _, s => s
  | n + 1, body, s => forDown n body (body n s)

theorem forUp_of_le (h : hi ≤ lo) : forUp lo hi body s = s := by
  rw [forUp, Nat.sub_eq_zero_of_le h]
  rfl

theorem forUp_succ (h : lo ≤ hi) : forUp lo (hi + 1) body s = body hi (forUp lo hi body s) := by
  have hrange : List.range' lo (hi + 1 - lo) = List.range' lo (hi - lo) ++ [hi] := by
    rw [Nat.sub_add_comm h, ← List.range'_append_1, Nat.add_sub_cancel' h]
    rfl
  rw [forUp, hrange, List.foldl_append]
  rfl

/-- An invariant of the loop upwards. -/
theorem forUp_induction {I : ℕ → σ → Prop} (h : lo ≤ hi) (h0 : I lo s)
    (hstep : ∀ i s, lo ≤ i → i < hi → I i s → I (i + 1) (body i s)) :
    I hi (forUp lo hi body s) := by
  induction hi, h using Nat.le_induction with
  | base => rw [forUp_of_le le_rfl]; exact h0
  | succ hi h ih =>
    rw [forUp_succ h]
    exact hstep hi _ h (Nat.lt_succ_self hi) (ih fun i s hl hr => hstep i s hl (by omega))

/-- An invariant of the loop downwards. -/
theorem forDown_induction {I : ℕ → σ → Prop} (h0 : I n s)
    (hstep : ∀ i s, i < n → I (i + 1) s → I i (body i s)) : I 0 (forDown n body s) := by
  induction n generalizing s with
  | zero => exact h0
  | succ n ih =>
    exact ih (hstep n s (Nat.lt_succ_self n) h0) fun i s hi => hstep i s (by omega)

/-- A view of the state that the bodies respect is respected by the loops. -/
theorem forUp_hom {g : σ → τ} {body' : ℕ → τ → τ} (h : ∀ i s, g (body i s) = body' i (g s)) :
    g (forUp lo hi body s) = forUp lo hi body' (g s) :=
  (List.foldl_hom g fun s i => (h i s).symm).symm

theorem forDown_hom {g : σ → τ} {body' : ℕ → τ → τ} (h : ∀ i s, g (body i s) = body' i (g s)) :
    g (forDown n body s) = forDown n body' (g s) := by
  induction n generalizing s with
  | zero => rfl
  | succ n ih => rw [forDown, forDown, ih, h]

/-- A view that no body changes. -/
theorem forUp_frame {g : σ → τ} (h : ∀ i s, lo ≤ i → i < hi → g (body i s) = g s) :
    g (forUp lo hi body s) = g s := by
  obtain hle | hlt := Nat.le_total hi lo
  · rw [forUp_of_le hle]
  · exact forUp_induction (I := fun _ t => g t = g s) hlt rfl
      fun i t hl hr ht => (h i t hl hr).trans ht

/-- A body that adds to a sum. -/
theorem forUp_add [AddCommMonoid R] (f : ℕ → R) (s : R) :
    forUp lo hi (fun i sum => sum + f i) s = s + ∑ i ∈ Finset.Ico lo hi, f i := by
  obtain hle | hlt := Nat.le_total hi lo
  · rw [forUp_of_le hle, Finset.Ico_eq_empty_of_le hle, Finset.sum_empty, add_zero]
  · refine forUp_induction (I := fun k sum => sum = s + ∑ i ∈ Finset.Ico lo k, f i) hlt ?_
      fun i sum hl hr hs => ?_
    · rw [Finset.Ico_self, Finset.sum_empty, add_zero]
    · rw [hs, Finset.sum_Ico_succ_top hl, add_assoc]

/-! ## Writes

The loops of a nest visit the entries of a list. Each body writes a cell and may read it. -/

section
variable [DecidableEq κ] {key : ι → κ} {value : ι → R → R} {visits : List ι} {m : κ → R}

/-- The body that gives the cell of an entry a value computed from the old one. -/
def write (key : ι → κ) (value : ι → R → R) (m : κ → R) (v : ι) : κ → R :=
  Function.update m (key v) (value v (m (key v)))

theorem foldl_write_frame {k : κ} (h : k ∉ visits.map key) :
    visits.foldl (write key value) m k = m k := by
  induction visits generalizing m with
  | nil => rfl
  | cons v visits ih =>
    rw [List.map_cons, List.mem_cons, not_or] at h
    rw [List.foldl_cons, ih h.2, write, Function.update_of_ne h.1]

/-- Where no two entries share a cell, each one is computed from the old value. -/
theorem foldl_write {v : ι} (hnd : (visits.map key).Nodup) (hv : v ∈ visits) :
    visits.foldl (write key value) m (key v) = value v (m (key v)) := by
  induction visits generalizing m with
  | nil => cases hv
  | cons w visits ih =>
    rw [List.map_cons, List.nodup_cons] at hnd
    rw [List.foldl_cons]
    obtain rfl | hv := List.mem_cons.mp hv
    · rw [foldl_write_frame hnd.1, write, Function.update_self]
    · have hne : key v ≠ key w := fun he => hnd.1 (he ▸ List.mem_map_of_mem hv)
      rw [ih hnd.2 hv, write, Function.update_of_ne hne]

end

/-- The entries that a nest of two loops visits; the bounds of the inner one may depend on the
index of the outer one. -/
def nest (n : ℕ) (lo hi : ℕ → ℕ) : List (ℕ × ℕ) :=
  (List.range' 0 n).flatMap fun i => (List.range' (lo i) (hi i - lo i)).map fun j => (i, j)

theorem mem_nest {lo hi : ℕ → ℕ} {i j : ℕ} :
    (i, j) ∈ nest n lo hi ↔ i < n ∧ lo i ≤ j ∧ j < hi i := by
  unfold nest
  rw [List.mem_flatMap]
  constructor
  · rintro ⟨k, hk, hp⟩
    obtain ⟨l, hl, he⟩ := List.mem_map.mp hp
    obtain ⟨rfl, rfl⟩ := Prod.mk.inj he
    rw [List.mem_range'_1] at hk hl
    omega
  · rintro ⟨hin, hlo, hhi⟩
    exact ⟨i, by rw [List.mem_range'_1]; omega,
      List.mem_map.mpr ⟨j, by rw [List.mem_range'_1]; omega, rfl⟩⟩

theorem nodup_nest (n : ℕ) (lo hi : ℕ → ℕ) : (nest n lo hi).Nodup := by
  unfold nest
  rw [List.nodup_flatMap]
  refine ⟨fun i _ => (List.nodup_range' 1).map fun j k h => (Prod.mk.inj h).2, ?_⟩
  refine (List.nodup_range' 1).imp fun {i k} hne p hp hq => ?_
  obtain ⟨j, -, rfl⟩ := List.mem_map.mp hp
  obtain ⟨l, -, he⟩ := List.mem_map.mp hq
  exact hne (Prod.mk.inj he).1.symm

/-- A nest of two loops is one loop over the entries that it visits. -/
theorem forUp_nest (lo hi : ℕ → ℕ) (body : ℕ → ℕ → σ → σ) (s : σ) :
    forUp 0 n (fun i => forUp (lo i) (hi i) (body i)) s =
      (nest n lo hi).foldl (fun s p => body p.1 p.2 s) s := by
  unfold nest forUp
  rw [List.foldl_flatMap]
  simp only [List.foldl_map, Nat.sub_zero]

end CCForge.Loops
