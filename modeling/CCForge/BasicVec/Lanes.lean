import CCForge.Lib.Cursors

/-!
# The lanes of a basic_vec

A `basic_vec` and a `basic_mask` have a fixed number of lanes, which the functions read and write one
by one. An access outside the lanes has no value.
-/

namespace CCForge.BasicVec

open CCForge.Loops (tryUp tryUp_succ tryUp_induction)

/-- A `basic_vec` or `basic_mask` of `n` lanes. The default constructor initialises every lane. -/
abbrev Vec (α : Type) (n : ℕ) := Fin n → α

variable {α : Type} {n i j : ℕ} {v : Vec α n} {x : α}

/-- `value[i]`. -/
def lane (v : Vec α n) (i : ℕ) : Option α :=
  if h : i < n then some (v ⟨i, h⟩) else none

/-- `set_lane`. -/
def setLane (v : Vec α n) (i : ℕ) (x : α) : Option (Vec α n) :=
  if h : i < n then some (Function.update v ⟨i, h⟩ x) else none

theorem lane_of_lt (h : i < n) : lane v i = some (v ⟨i, h⟩) := dif_pos h

theorem lane_of_le (h : n ≤ i) : lane v i = none := dif_neg (Nat.not_lt.mpr h)

theorem setLane_of_lt (h : i < n) : setLane v i x = some (Function.update v ⟨i, h⟩ x) := dif_pos h

/-- A write changes its own lane and no other. -/
theorem lane_update (h : i < n) :
    lane (Function.update v ⟨i, h⟩ x) j = if j = i then some x else lane v j := by
  unfold lane
  by_cases hj : j < n
  · by_cases he : j = i
    · subst he
      simp [hj]
    · simp [hj, he]
  · have hne : j ≠ i := by omega
    simp [hj, hne]

/-- Vectors of the same size with the same lanes. -/
theorem eq_of_lane {w : Vec α n} (h : ∀ i < n, lane v i = lane w i) : v = w := by
  funext i
  have hi := h i i.isLt
  rw [lane_of_lt i.isLt, lane_of_lt i.isLt] at hi
  exact Option.some.inj hi

/-- A loop that computes each lane of its result on its own. -/
theorem tryUp_setLane {f : ℕ → Option α} {g : Vec α n} (h : ∀ i : Fin n, f i = some (g i)) :
    tryUp n (fun i result => (f i).bind (setLane result i)) v = some g := by
  obtain ⟨t, ht, hI⟩ := tryUp_induction (n := n) (s := v)
    (I := fun k t => ∀ i, i < k → lane t i = lane g i)
    (f := fun i result => (f i).bind (setLane result i)) (by simp) (by
      intro i s hi hI
      refine ⟨Function.update s ⟨i, hi⟩ (g ⟨i, hi⟩), ?_, ?_⟩
      · simp only [h ⟨i, hi⟩, Option.bind_some, setLane_of_lt hi]
      · intro j hj
        rw [lane_update]
        split
        · rename_i he
          rw [he, lane_of_lt hi]
        · exact hI j (by omega))
  rw [ht, eq_of_lane hI]

theorem lane_fin (v : Vec α n) (i : Fin n) : lane v i = some (v i) := lane_of_lt i.isLt

/-- The lanes of what such a loop gives. -/
theorem of_tryUp_setLane {f : ℕ → Option α} {g : Vec α n}
    (h : tryUp n (fun i result => (f i).bind (setLane result i)) v = some g) (i : Fin n) :
    f i = some (g i) := by
  have hall (k : ℕ) : ∀ t : Vec α n, k ≤ n →
      tryUp k (fun i result => (f i).bind (setLane result i)) v = some t →
        ∀ i < k, f i = lane t i := by
    induction k with
    | zero => simp
    | succ k ih =>
      intro t hk ht i hi
      rw [tryUp_succ, Option.bind_eq_some_iff] at ht
      obtain ⟨s, hs, hbody⟩ := ht
      obtain ⟨x, hx, hset⟩ := Option.bind_eq_some_iff.mp hbody
      rw [setLane_of_lt (show k < n by omega)] at hset
      cases hset
      rw [lane_update]
      split
      · rename_i he
        rw [he, hx]
      · exact ih s (by omega) hs i (by omega)
  rw [hall n g le_rfl h i i.isLt, lane_fin]

end CCForge.BasicVec
