import CCForge.Submdspan.Strides

/-!
# The selection

The elements that the slices select, by position. The strides of the selection are those of
the dimensions that the slices keep, times the stride factor of the slice.
-/

namespace CCForge.Submdspan

open CCForge.Strided

variable {slice : Slice} {slices : List Slice} {extents σ j : List ℕ} {src : Mapping}

/-- The strides of the selection. -/
def subStrides : List ℕ → List Slice → List ℕ
  | s :: σ, slice :: slices =>
    if slice.isIndex then subStrides σ slices else s * slice.strideFactor :: subStrides σ slices
  | _, _ => []

/-- How many dimensions the slices keep. -/
def keptRank (slices : List Slice) : ℕ := slices.countP fun slice => !slice.isIndex

/-! ## The helpers compute the selection -/

theorem extentsBuilder_eq (extents : List ℕ) (slices : List Slice) (rest : List ℕ) :
    extentsBuilder extents slices rest = rest ++ selectedExtents extents slices := by
  induction slices generalizing extents rest with
  | nil => cases extents <;> simp [extentsBuilder, selectedExtents]
  | cons slice slices ih =>
    cases extents with
    | nil => cases slice <;> simp [extentsBuilder, selectedExtents]
    | cons e extents =>
      cases slice with
      | index i => exact ih extents rest
      | full => simp [extentsBuilder, ih, selectedExtents, Slice.lastOf, Slice.firstOf]
      | extentSlice offset sub stride staticStride => simp [extentsBuilder, ih, selectedExtents]

theorem subextents_eq (extents : List ℕ) (slices : List Slice) :
    subextents extents slices = selectedExtents extents slices :=
  extentsBuilder_eq extents slices []

theorem invMapRank_append (c : ℕ) (ms : List ℕ) :
    invMapRank c ms slices = ms ++ invMapRank c [] slices := by
  induction slices generalizing c ms with
  | nil => simp [invMapRank]
  | cons slice slices ih =>
    rw [invMapRank, invMapRank]
    split
    · exact ih (c + 1) ms
    · rw [ih (c + 1) (ms ++ [c]), ih (c + 1) ([] ++ [c]), List.append_assoc, List.nil_append]

theorem buildSubStrides_from (src : Mapping) (pre : List ℕ) (slices : List Slice) :
    buildSubStrides src (invMapRank pre.length [] slices) (pre ++ makeStrideFactors slices) =
      subStrides ((List.range' pre.length slices.length).map src.stride) slices := by
  induction slices generalizing pre with
  | nil => rfl
  | cons slice slices ih =>
    have hnext := ih (pre ++ [slice.strideFactor])
    rw [List.length_append, List.length_singleton, List.append_assoc] at hnext
    rw [invMapRank, List.length_cons, List.range'_succ, List.map_cons, subStrides]
    split
    · exact hnext
    · rw [invMapRank_append]
      simp only [buildSubStrides, List.nil_append, List.map_cons, List.singleton_append,
        List.cons.injEq]
      exact ⟨by simp [makeStrideFactors], hnext⟩

theorem buildSubStrides_eq (h : slices.length = src.extents.length) :
    buildSubStrides src (invMapRank 0 [] slices) (makeStrideFactors slices) =
      subStrides src.strides slices := by
  have hfrom := buildSubStrides_from src [] slices
  rw [List.length_nil, List.nil_append, h, ← List.range_eq_range'] at hfrom
  exact hfrom

theorem length_selectedExtents (h : extents.length = slices.length) :
    (selectedExtents extents slices).length = keptRank slices := by
  induction slices generalizing extents with
  | nil => cases extents <;> rfl
  | cons slice slices ih =>
    cases extents with
    | nil => cases h
    | cons e extents =>
      have hrest := ih (Nat.succ.inj h)
      cases slice <;> simp [selectedExtents, keptRank, Slice.isIndex, hrest]

theorem length_subStrides (h : σ.length = slices.length) :
    (subStrides σ slices).length = keptRank slices := by
  induction slices generalizing σ with
  | nil => cases σ <;> rfl
  | cons slice slices ih =>
    cases σ with
    | nil => cases h
    | cons s σ =>
      have hrest := ih (Nat.succ.inj h)
      cases slice <;> simp [subStrides, keptRank, Slice.isIndex, hrest]

theorem ValidSlices.length_eq (h : ValidSlices extents slices) : extents.length = slices.length :=
  List.Forall₂.length_eq h

/-! ## Offsets -/

/-- A slice that starts at the extent selects nothing. -/
theorem zero_mem_of_anyOob (h : ValidSlices extents slices) (hoob : anyOob extents slices = true) :
    0 ∈ selectedExtents extents slices := by
  induction h with
  | nil => cases hoob
  | @cons e slice extents slices hv _ ih =>
    simp only [anyOob, List.zipWith_cons_cons, List.any_cons, id, Bool.or_eq_true] at hoob
    cases slice with
    | index i =>
      obtain he | hrest := hoob
      · have hi : i = e := beq_iff_eq.mp he
        exact absurd hv (hi ▸ Nat.lt_irrefl i)
      · exact ih hrest
    | full =>
      obtain he | hrest := hoob
      · have hi : 0 = e := beq_iff_eq.mp he
        simp [selectedExtents, ← hi]
      · exact List.mem_cons_of_mem _ (ih hrest)
    | extentSlice offset sub stride staticStride =>
      obtain he | hrest := hoob
      · have ho : offset = e := beq_iff_eq.mp he
        have hsub : sub = 0 := by
          by_contra hne
          have hlt := hv.1 (Nat.pos_of_ne_zero hne)
          omega
        simp [selectedExtents, hsub]
      · exact List.mem_cons_of_mem _ (ih hrest)

/-- Where no slice starts at its extent, all of them start inside. -/
theorem inBox_firstOf (h : ValidSlices extents slices) (hoob : anyOob extents slices = false) :
    InBox (slices.map Slice.firstOf) extents := by
  induction h with
  | nil => exact .nil
  | @cons e slice extents slices hv _ ih =>
    simp only [anyOob, List.zipWith_cons_cons, List.any_cons, id, Bool.or_eq_false_iff] at hoob
    obtain ⟨he, hrest⟩ := hoob
    have hne : slice.firstOf ≠ e := by simpa [Slice.oneOob] using he
    refine .cons ?_ (ih hrest)
    cases slice with
    | index i => exact hv
    | full => exact Nat.pos_of_ne_zero (Ne.symm hne)
    | extentSlice offset sub stride staticStride =>
      obtain hsub | hsub := Nat.eq_zero_or_pos sub
      · exact Nat.lt_of_le_of_ne (hv.2 hsub) hne
      · have hlt := hv.1 hsub
        simp only [Slice.firstOf]
        omega

/-! ## The selected elements -/

theorem extentSlice_lt {offset sub stride x e : ℕ} (hv : 0 < sub → offset + (sub - 1) * stride < e)
    (hx : x < sub) : offset + x * stride < e := by
  have hle : x * stride ≤ (sub - 1) * stride := Nat.mul_le_mul_right stride (Nat.le_sub_one_of_lt hx)
  have hlt := hv (Nat.zero_lt_of_lt hx)
  omega

/-- An index of the selection is an index of the source. -/
theorem inBox_select (h : ValidSlices extents slices) (hj : InBox j (selectedExtents extents slices)) :
    InBox (select slices j) extents := by
  induction h generalizing j with
  | nil => exact .nil
  | @cons e slice extents slices hv _ ih =>
    cases slice with
    | index i => exact .cons hv (ih hj)
    | full =>
      obtain - | ⟨hx, hrest⟩ := hj
      exact .cons hx (ih hrest)
    | extentSlice offset sub stride staticStride =>
      obtain - | ⟨hx, hrest⟩ := hj
      exact .cons (extentSlice_lt hv.1 hx) (ih hrest)

/-- The first selected element and the strides of the selection reach each selected element. -/
theorem dot_select (hlen : extents.length = slices.length)
    (hj : InBox j (selectedExtents extents slices)) (σ : List ℕ) (hσ : σ.length = slices.length) :
    dot (slices.map Slice.firstOf) σ + dot j (subStrides σ slices) = dot (select slices j) σ := by
  induction slices generalizing extents j σ with
  | nil =>
    cases extents with
    | nil =>
      cases hj
      simp [select]
    | cons e extents => cases hlen
  | cons slice slices ih =>
    cases extents with
    | nil => cases hlen
    | cons e extents =>
      cases σ with
      | nil => cases hσ
      | cons s σ =>
        have hlen' := Nat.succ.inj hlen
        have hσ' := Nat.succ.inj hσ
        cases slice with
        | index i =>
          have hrest := ih hlen' hj σ hσ'
          simp only [List.map_cons, Slice.firstOf, dot, subStrides, Slice.isIndex, if_true, select]
          omega
        | full =>
          obtain - | ⟨hx, hj'⟩ := hj
          have hrest := ih hlen' hj' σ hσ'
          simp only [List.map_cons, Slice.firstOf, dot, subStrides, Slice.isIndex, Bool.false_eq_true,
            if_false, select, Slice.strideFactor, Slice.strideOf, Nat.mul_one]
          omega
        | extentSlice offset sub stride staticStride =>
          cases hj with
          | @cons x _ js _ hx hj' =>
            have hrest := ih hlen' hj' σ hσ'
            have hstep : x * (s * (Slice.extentSlice offset sub stride staticStride).strideFactor) =
                x * stride * s := by
              simp only [Slice.strideFactor]
              split
              · rw [Nat.mul_assoc, Nat.mul_comm stride]
              · have hlt : x < sub := hx
                have hx0 : x = 0 := by omega
                simp [hx0]
            simp only [List.map_cons, Slice.firstOf, dot, subStrides, Slice.isIndex,
              Bool.false_eq_true, if_false, select, hstep, Nat.add_mul]
            omega

end CCForge.Submdspan
