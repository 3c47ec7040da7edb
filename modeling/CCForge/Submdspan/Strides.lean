import CCForge.Submdspan.Model

/-!
# The strides of a mapping
-/

namespace CCForge.Submdspan

open CCForge.Strided

namespace Mapping

variable {m : Mapping} {e : ℕ} {es extents idxs : List ℕ}

/-- The strides of all dimensions. -/
def strides (m : Mapping) : List ℕ := (List.range m.rank).map m.stride

@[simp] theorem length_strides (m : Mapping) : m.strides.length = m.extents.length := by
  simp [strides, rank]

theorem sumFrom_eq_dot (r : ℕ) :
    m.sumFrom r idxs = dot idxs ((List.range' r idxs.length).map m.stride) := by
  induction idxs generalizing r with
  | nil => simp [sumFrom]
  | cons i is ih =>
    rw [sumFrom, ih, List.length_cons, List.range'_succ, List.map_cons, dot]

theorem apply_eq_dot (h : idxs.length = m.extents.length) : m.apply idxs = dot idxs m.strides := by
  rw [apply, sumFrom_eq_dot, h, strides, rank, List.range_eq_range']

theorem spanOf_eq (m : Mapping) : m.spanOf = dot (last m.extents) m.strides + 1 := by
  have h : m.sumFrom 0 (last m.extents) = dot (last m.extents) m.strides :=
    apply_eq_dot length_last
  rw [spanOf]
  exact congrArg (· + 1) h

/-! ## Each layout -/

theorem strides_layoutLeft (extents : List ℕ) :
    (layoutLeft extents).strides = columnStrides 1 extents := by
  rw [columnStrides_eq_map]
  exact List.map_congr_left fun k _ => (Nat.one_mul _).symm

theorem strides_layoutStride {strides : List ℕ} (h : strides.length = extents.length) :
    (layoutStride extents strides).strides = strides := by
  refine List.ext_getElem (by simp [Mapping.strides, rank, Mapping.extents, h]) fun k _ hk => ?_
  simp [Mapping.strides, stride, hk]

theorem strides_layoutLeftPadded (e : ℕ) (es : List ℕ) (stride1 : ℕ) :
    (layoutLeftPadded (e :: es) stride1).strides = 1 :: columnStrides stride1 es := by
  rw [columnStrides_eq_map]
  simp only [strides, rank, Mapping.extents, List.length_cons, List.range_succ_eq_map, List.map_cons,
    List.map_map, List.cons.injEq]
  refine ⟨rfl, List.map_congr_left fun k _ => ?_⟩
  simp only [Function.comp, stride, leftPaddedStride, List.length_cons, Nat.succ_eq_add_one,
    Nat.add_eq_zero_iff, one_ne_zero, and_false, if_false, List.take_succ_cons, List.drop_succ_cons,
    List.drop_zero]
  split
  · next hk =>
    have hk0 : k = 0 := by omega
    simp [hk0]
  · rfl

theorem strides_layoutRight_cons (e : ℕ) (es : List ℕ) :
    (layoutRight (e :: es)).strides = es.prod :: (layoutRight es).strides := by
  simp only [strides, rank, Mapping.extents, List.length_cons, List.range_succ_eq_map, List.map_cons,
    List.map_map, List.cons.injEq]
  exact ⟨rfl, rfl⟩

/-- The row-major strides are the column-major strides of the reversed extents. -/
theorem strides_layoutRight (extents : List ℕ) :
    (layoutRight extents).strides = (columnStrides 1 extents.reverse).reverse := by
  induction extents with
  | nil => rfl
  | cons e es ih =>
    rw [strides_layoutRight_cons, ih, List.reverse_cons, columnStrides_append, List.reverse_append]
    simp [columnStrides]

theorem strides_layoutRightPadded_cons (x e : ℕ) (es : List ℕ) (strideRm2 : ℕ) :
    (layoutRightPadded (x :: (es ++ [e])) strideRm2).strides =
      strideRm2 * es.prod :: (layoutRightPadded (es ++ [e]) strideRm2).strides := by
  simp only [strides, rank, Mapping.extents, List.length_cons, List.length_append, List.length_nil,
    List.range_succ_eq_map, List.map_cons, List.map_map, List.cons.injEq]
  refine ⟨?_, ?_⟩
  · simp only [stride, rightPaddedStride, List.length_cons, List.length_append, List.length_nil]
    rw [if_neg (by omega), if_neg (by omega)]
    split
    · next h =>
      have hes : es = [] := List.length_eq_zero_iff.mp (by omega)
      simp [hes]
    · simp
  · have hstride (k : ℕ) : (layoutRightPadded (x :: (es ++ [e])) strideRm2).stride (k + 1) =
        (layoutRightPadded (es ++ [e]) strideRm2).stride k := by
      simp only [stride, rightPaddedStride, List.length_cons, List.length_append, List.length_nil,
        Nat.add_right_cancel_iff, Nat.add_eq_zero_iff, one_ne_zero, and_false, if_false]
      have htake : (x :: (es ++ [e])).take (es.length + (0 + 1) + 1 - 1) =
          x :: (es ++ [e]).take (es.length + (0 + 1) - 1) := by
        simp [List.take_succ_cons]
      rw [htake, List.drop_succ_cons]
      have hsecond : (k + 2 = es.length + (0 + 1)) = (k + 1 = es.length) :=
        propext ⟨by omega, by omega⟩
      simp only [hsecond]
    exact ⟨hstride 0, List.map_congr_left fun k _ => hstride (k + 1)⟩

theorem strides_layoutRightPadded (e : ℕ) (es : List ℕ) (strideRm2 : ℕ) :
    (layoutRightPadded (es ++ [e]) strideRm2).strides =
      (1 :: columnStrides strideRm2 es.reverse).reverse := by
  induction es with
  | nil => rfl
  | cons x es ih =>
    rw [List.cons_append, strides_layoutRightPadded_cons, ih, List.reverse_cons, List.reverse_cons,
      List.reverse_cons, columnStrides_append, List.reverse_append]
    simp [columnStrides]

/-! ## The span -/

/-- The span ends after the element with the greatest index. -/
theorem requiredSpanSize_eq (h : 0 ∉ m.extents) :
    m.requiredSpanSize = dot (last m.extents) m.strides + 1 := by
  cases m with
  | layoutLeft extents =>
    rw [strides_layoutLeft]
    exact ((dot_last_columnStrides 1 h).trans (Nat.one_mul _)).symm
  | layoutRight extents =>
    rw [strides_layoutRight]
    have hrev : 0 ∉ extents.reverse := by
      rw [List.mem_reverse]
      exact h
    have hdot := dot_last_columnStrides 1 hrev
    rw [last_reverse, Nat.one_mul, List.prod_reverse] at hdot
    rw [← dot_reverse, List.reverse_reverse]
    · exact hdot.symm
    · simp [Mapping.extents]
  | layoutStride extents strides =>
    exact (if_neg h).trans (spanOf_eq _)
  | layoutLeftPadded extents stride1 =>
    exact (if_neg h).trans (spanOf_eq _)
  | layoutRightPadded extents strideRm2 =>
    exact (if_neg h).trans (spanOf_eq _)

theorem requiredSpanSize_eq_zero (h : 0 ∈ m.extents) : m.requiredSpanSize = 0 := by
  cases m with
  | layoutLeft extents => exact prod_eq_zero h
  | layoutRight extents => exact prod_eq_zero h
  | layoutStride extents strides => exact if_pos h
  | layoutLeftPadded extents stride1 => exact if_pos h
  | layoutRightPadded extents strideRm2 => exact if_pos h

/-- Each element lies in the span. -/
theorem apply_lt (h : InBox idxs m.extents) : m.apply idxs < m.requiredSpanSize := by
  rw [requiredSpanSize_eq h.zero_notMem, apply_eq_dot h.length_eq]
  exact Nat.lt_succ_of_le h.dot_le_last

end Mapping

end CCForge.Submdspan
