import CCForge.Submdspan.Mirror
import Mathlib.Tactic.Ring

/-!
# What submdspan guarantees
-/

namespace CCForge.Submdspan

open CCForge.Strided

variable {slices S T C : List Slice} {extents σ j : List ℕ} {src : Mapping} {limit : ℕ}

/-! ## The selected elements -/

theorem anyOob_eq_false (hv : ValidSlices extents slices) (hzero : 0 ∉ selectedExtents extents slices) :
    anyOob extents slices = false :=
  Bool.eq_false_iff.mpr fun hoob => hzero (zero_mem_of_anyOob hv hoob)

/-- The offset of the first selected element. -/
theorem subOffset_eq (hv : ValidSlices src.extents slices)
    (hoob : anyOob src.extents slices = false) :
    subOffset src slices = dot (slices.map Slice.firstOf) src.strides := by
  rw [subOffset, hoob, if_neg Bool.false_ne_true, Mapping.apply_eq_dot]
  rw [List.length_map, hv.length_eq]

/-- Whichever layout the result has, it addresses exactly the selected elements. -/
theorem submdspan_mapping_addresses_selected (src : Mapping) (slices : List Slice) (hs : src.Valid)
    (hv : ValidSlices src.extents slices) :
    (submdspanMapping src slices).mapping.extents = selectedExtents src.extents slices ∧
    ∀ j, InBox j (submdspanMapping src slices).mapping.extents →
      (submdspanMapping src slices).offset + (submdspanMapping src slices).mapping.apply j =
        src.apply (select slices j) := by
  have hr := represents hs hv
  refine ⟨hr.extents, fun j hj => ?_⟩
  rw [hr.apply j hj, hr.offset]
  rw [hr.extents] at hj
  have hlen := hv.length_eq
  rw [subOffset_eq hv (anyOob_eq_false hv hj.zero_notMem),
    dot_select hlen hj _ (by rw [Mapping.length_strides, hlen]),
    Mapping.apply_eq_dot (inBox_select hv hj).length_eq]

theorem submdspan_mapping_addresses_selected_padded :
    submdspanMapping (.layoutLeft [3, 4, 5]) [.extentSlice 1 2 1 true, .index 2, .full] =
      { mapping := .layoutLeftPadded [2, 5] 12, offset := 7 } ∧
    7 + (Mapping.layoutLeftPadded [2, 5] 12).apply [1, 4] =
      (Mapping.layoutLeft [3, 4, 5]).apply [2, 2, 4] := by
  have hv : ValidSlices [3, 4, 5] [.extentSlice 1 2 1 true, .index 2, .full] :=
    .cons (by decide) (.cons (by decide) (.cons (by decide) .nil))
  refine ⟨by decide, ?_⟩
  exact (submdspan_mapping_addresses_selected (.layoutLeft [3, 4, 5])
    [.extentSlice 1 2 1 true, .index 2, .full] trivial hv).2 [1, 4]
      (.cons (by decide) (.cons (by decide) .nil))

/-! ## Composition -/

/-- Slicing by the first slices and then by the second ones selects what the third ones select.
An `extent_slice` of an `extent_slice` may or may not have a constant stride. -/
inductive Composed : List Slice → List Slice → List Slice → Prop
  | nil : Composed [] [] []
  | index {S T C : List Slice} (i : ℕ) : Composed S T C → Composed (.index i :: S) T (.index i :: C)
  | full {S T C : List Slice} (slice : Slice) : Composed S T C →
      Composed (.full :: S) (slice :: T) (slice :: C)
  | indexOf {S T C : List Slice} (o e s : ℕ) (b : Bool) (i : ℕ) : Composed S T C →
      Composed (.extentSlice o e s b :: S) (.index i :: T) (.index (o + i * s) :: C)
  | fullOf {S T C : List Slice} (o e s : ℕ) (b : Bool) : Composed S T C →
      Composed (.extentSlice o e s b :: S) (.full :: T) (.extentSlice o e s b :: C)
  | extentOf {S T C : List Slice} (o e s : ℕ) (b : Bool) (o' e' s' : ℕ) (b' b'' : Bool) :
      Composed S T C → Composed (.extentSlice o e s b :: S) (.extentSlice o' e' s' b' :: T)
        (.extentSlice (o + o' * s) e' (s * s') b'' :: C)

namespace Composed

theorem length_eq (h : Composed S T C) : C.length = S.length := by
  induction h with
  | nil => rfl
  | _ => simp [*]

theorem selectedExtents (h : Composed S T C) (hlen : extents.length = S.length) :
    Submdspan.selectedExtents (Submdspan.selectedExtents extents S) T =
      Submdspan.selectedExtents extents C := by
  induction h generalizing extents with
  | nil =>
    rw [List.length_eq_zero_iff.mp hlen]
    rfl
  | @full S T C slice _ ih =>
    cases extents with
    | nil => cases hlen
    | cons x extents =>
      have hrest := ih (Nat.succ.inj hlen)
      cases slice <;> simp [Submdspan.selectedExtents, hrest]
  | _ =>
    cases extents with
    | nil => cases hlen
    | cons x extents =>
      rename_i ih
      have hrest := ih (Nat.succ.inj hlen)
      simp [Submdspan.selectedExtents, hrest]

/-- The same elements are selected. -/
theorem select (h : Composed S T C) (j : List ℕ) :
    Submdspan.select S (Submdspan.select T j) = Submdspan.select C j := by
  induction h generalizing j with
  | nil => rfl
  | index i _ ih => simp [Submdspan.select, ih]
  | full slice _ ih =>
    cases slice with
    | index i => simp [Submdspan.select, ih]
    | full => cases j <;> simp [Submdspan.select, ih]
    | extentSlice offset sub stride staticStride => cases j <;> simp [Submdspan.select, ih]
  | indexOf o e s b i _ ih => simp [Submdspan.select, ih]
  | fullOf o e s b _ ih => cases j <;> simp [Submdspan.select, ih]
  | extentOf o e s b o' e' s' b' b'' _ ih =>
    cases j with
    | nil => simp [Submdspan.select]
    | cons x j =>
      simp only [Submdspan.select, ih, List.cons.injEq, and_true]
      ring

/-- The composed slices are valid, unless they select nothing. -/
theorem valid (h : Composed S T C) (hS : ValidSlices extents S)
    (hT : ValidSlices (Submdspan.selectedExtents extents S) T)
    (hzero : 0 ∉ Submdspan.selectedExtents extents C) : ValidSlices extents C := by
  induction h generalizing extents with
  | nil => exact hS
  | index i _ ih =>
    cases hS with
    | cons hi hS => exact .cons hi (ih hS hT hzero)
  | full slice _ ih =>
    cases hS with
    | cons _ hS =>
      cases hT with
      | cons ht hT =>
        refine .cons ht (ih hS hT ?_)
        cases slice with
        | index i => exact hzero
        | _ => exact fun hmem => hzero (List.mem_cons_of_mem _ hmem)
  | indexOf o e s b i _ ih =>
    cases hS with
    | cons hs hS =>
      cases hT with
      | cons ht hT => exact .cons (extentSlice_lt hs.1 ht) (ih hS hT hzero)
  | fullOf o e s b _ ih =>
    cases hS with
    | cons hs hS =>
      cases hT with
      | cons _ hT =>
        exact .cons hs (ih hS hT fun hmem => hzero (List.mem_cons_of_mem _ hmem))
  | extentOf o e s b o' e' s' b' b'' _ ih =>
    cases hS with
    | cons hs hS =>
      cases hT with
      | cons ht hT =>
        refine .cons ⟨fun he' => ?_, fun he' => absurd ?_ hzero⟩
          (ih hS hT fun hmem => hzero (List.mem_cons_of_mem _ hmem))
        · have hlt := extentSlice_lt hs.1 (ht.1 he')
          have hring : o + o' * s + (e' - 1) * (s * s') = o + (o' + (e' - 1) * s') * s := by ring
          rw [hring]
          exact hlt
        · rw [he']
          exact List.mem_cons_self

end Composed

/-- Also where the slices are not valid, the result has the extents of the selection. -/
theorem extents_submdspanMapping (hlen : src.extents.length = slices.length) :
    (submdspanMapping src slices).mapping.extents = selectedExtents src.extents slices := by
  rw [← subextents_eq]
  cases src with
  | layoutLeft extents =>
    simp only [submdspanMapping, submdspanMappingLeft]
    split_ifs <;> rfl
  | layoutRight extents =>
    simp only [submdspanMapping, submdspanMappingRight]
    split_ifs <;> rfl
  | layoutStride extents strides =>
    simp only [submdspanMapping, submdspanMappingStride]
    split_ifs <;> rfl
  | layoutLeftPadded extents stride1 =>
    simp only [submdspanMapping, submdspanMappingLeftPadded]
    split_ifs with hsr
    · have hnil := List.length_eq_zero_iff.mp hsr
      subst hnil
      rw [List.length_eq_zero_iff.mp hlen.symm]
      rfl
    all_goals rfl
  | layoutRightPadded extents strideRm2 =>
    simp only [submdspanMapping, submdspanMappingRightPadded]
    split_ifs with hsr
    · have hnil := List.length_eq_zero_iff.mp hsr
      subst hnil
      rw [List.length_eq_zero_iff.mp hlen.symm]
      rfl
    all_goals rfl

/-- Slicing twice reaches the same elements as slicing once by the composed slices. -/
theorem submdspan_mapping_composes (src : Mapping) (S T C : List Slice) (hs : src.Valid)
    (hS : ValidSlices src.extents S)
    (hT : ValidSlices (submdspanMapping src S).mapping.extents T) (hC : Composed S T C) :
    (submdspanMapping (submdspanMapping src S).mapping T).mapping.extents =
      (submdspanMapping src C).mapping.extents ∧
    ∀ j, InBox j (submdspanMapping (submdspanMapping src S).mapping T).mapping.extents →
      ValidSlices src.extents C ∧
      (submdspanMapping src S).offset + (submdspanMapping (submdspanMapping src S).mapping T).offset +
          (submdspanMapping (submdspanMapping src S).mapping T).mapping.apply j =
        (submdspanMapping src C).offset + (submdspanMapping src C).mapping.apply j := by
  have hr := represents hs hS
  have hlen := hS.length_eq
  have hextents : (submdspanMapping (submdspanMapping src S).mapping T).mapping.extents =
      (submdspanMapping src C).mapping.extents := by
    rw [extents_submdspanMapping hT.length_eq, hr.extents, hC.selectedExtents hlen,
      extents_submdspanMapping (hlen.trans hC.length_eq.symm)]
  refine ⟨hextents, fun j hj => ?_⟩
  have hsecond := (submdspan_mapping_addresses_selected _ T hr.valid hT).2 j hj
  have hselected : InBox (select T j) (submdspanMapping src S).mapping.extents := by
    rw [extents_submdspanMapping hT.length_eq] at hj
    exact inBox_select hT hj
  have hfirst := (submdspan_mapping_addresses_selected src S hs hS).2 _ hselected
  rw [hextents] at hj
  have hvalid : ValidSlices src.extents C := by
    rw [hr.extents] at hT
    refine hC.valid hS hT ?_
    rw [← extents_submdspanMapping (hlen.trans hC.length_eq.symm)]
    exact hj.zero_notMem
  have honce := (submdspan_mapping_addresses_selected src C hs hvalid).2 j hj
  refine ⟨hvalid, ?_⟩
  rw [honce, ← hC.select, ← hfirst, ← hsecond, Nat.add_assoc]

theorem submdspan_mapping_composes_strided :
    (submdspanMapping (.layoutRight [6, 7]) [.extentSlice 1 3 2 false, .full]).offset +
        (submdspanMapping (submdspanMapping (.layoutRight [6, 7])
          [.extentSlice 1 3 2 false, .full]).mapping [.extentSlice 1 2 1 true, .index 3]).offset +
        (submdspanMapping (submdspanMapping (.layoutRight [6, 7])
          [.extentSlice 1 3 2 false, .full]).mapping [.extentSlice 1 2 1 true, .index 3]).mapping.apply
            [1] =
      (submdspanMapping (.layoutRight [6, 7]) [.extentSlice 3 2 2 false, .index 3]).offset +
        (submdspanMapping (.layoutRight [6, 7]) [.extentSlice 3 2 2 false, .index 3]).mapping.apply
          [1] := by
  have hS : ValidSlices [6, 7] [.extentSlice 1 3 2 false, .full] :=
    .cons (by decide) (.cons (by decide) .nil)
  have hT : ValidSlices [3, 7] [.extentSlice 1 2 1 true, .index 3] :=
    .cons (by decide) (.cons (by decide) .nil)
  have hC : Composed [.extentSlice 1 3 2 false, .full] [.extentSlice 1 2 1 true, .index 3]
      [.extentSlice 3 2 2 false, .index 3] :=
    .extentOf 1 3 2 false 1 2 1 true false (.full _ .nil)
  exact ((submdspan_mapping_composes (.layoutRight [6, 7]) _ _ _ trivial hS hT hC).2 [1]
    (.cons (by decide) .nil)).2

/-! ## The codomain -/

namespace Mapping

/-- The values that a mapping object stores fit its index type. -/
def Stored (limit : ℕ) (m : Mapping) : Prop :=
  (∀ x ∈ m.extents, x ≤ limit) ∧
  match m with
  | layoutStride _ strides => ∀ x ∈ strides, x ≤ limit
  | layoutLeftPadded _ stride1 => stride1 ≤ limit
  | layoutRightPadded _ strideRm2 => strideRm2 ≤ limit
  | _ => True

/-- What the constructors of the padded layouts ask for: the product of the padding stride and
the other extents fits the index type. -/
def PaddedProduct (limit : ℕ) : Mapping → Prop
  | layoutLeftPadded extents stride1 => ∀ e es, extents = e :: es → es ≠ [] → stride1 * es.prod ≤ limit
  | layoutRightPadded extents strideRm2 =>
    ∀ e es, extents = es ++ [e] → es ≠ [] → strideRm2 * es.prod ≤ limit
  | _ => True

end Mapping

theorem le_columnStrides {s : ℕ} (hzero : 0 ∉ extents) :
    ∀ x ∈ columnStrides s extents, x ≤ s * extents.prod := by
  induction extents generalizing s with
  | nil =>
    intro x hx
    cases hx
  | cons y ys ih =>
    rw [List.mem_cons, not_or] at hzero
    intro x hx
    rw [List.prod_cons, ← Nat.mul_assoc]
    obtain rfl | hx := List.mem_cons.mp hx
    · have hprod := prod_pos hzero.2
      have hy := Nat.pos_of_ne_zero (Ne.symm hzero.1)
      rw [Nat.mul_assoc]
      exact Nat.le_mul_of_pos_right x (Nat.mul_pos hy hprod)
    · exact ih hzero.2 x hx

/-- The strides of a source that is not empty fit the index type. -/
theorem strides_le (hs : src.Valid) (hstored : src.Stored limit) (hproduct : src.PaddedProduct limit)
    (hspan : src.requiredSpanSize ≤ limit) (hzero : 0 ∉ src.extents) :
    ∀ x ∈ src.strides, x ≤ limit := by
  have hone : 1 ≤ limit := by
    rw [Mapping.requiredSpanSize_eq hzero] at hspan
    omega
  have hpadded : ∀ {e s : ℕ} {es : List ℕ}, 0 ∉ es → (es ≠ [] → s * es.prod ≤ limit) →
      ∀ x ∈ 1 :: columnStrides s es, x ≤ limit := by
    intro e s es hes hle x hx
    obtain rfl | hx := List.mem_cons.mp hx
    · exact hone
    · cases es with
      | nil => cases hx
      | cons y ys => exact (le_columnStrides hes x hx).trans (hle (List.cons_ne_nil y ys))
  cases src with
  | layoutLeft extents =>
    intro x hx
    rw [Mapping.strides_layoutLeft] at hx
    have hle := le_columnStrides hzero x hx
    rw [Nat.one_mul] at hle
    exact hle.trans hspan
  | layoutRight extents =>
    intro x hx
    rw [Mapping.strides_layoutRight, List.mem_reverse] at hx
    have hrev : 0 ∉ extents.reverse := by
      rw [List.mem_reverse]
      exact hzero
    have hle := le_columnStrides hrev x hx
    rw [Nat.one_mul, List.prod_reverse] at hle
    exact hle.trans hspan
  | layoutStride extents strides =>
    rw [Mapping.strides_layoutStride hs]
    exact hstored.2
  | layoutLeftPadded extents stride1 =>
    cases extents with
    | nil =>
      intro x hx
      cases hx
    | cons e es =>
      rw [Mapping.strides_layoutLeftPadded]
      exact hpadded (e := e) (fun hmem => hzero (List.mem_cons_of_mem _ hmem)) (hproduct e es rfl)
  | layoutRightPadded extents strideRm2 =>
    obtain rfl | ⟨es, e, rfl⟩ := List.eq_nil_or_concat extents
    · intro x hx
      cases hx
    · rw [List.concat_eq_append] at hzero hproduct ⊢
      intro x hx
      rw [Mapping.strides_layoutRightPadded, List.mem_reverse] at hx
      refine hpadded (e := e) ?_ ?_ x hx
      · intro hmem
        exact hzero (List.mem_append_left _ (List.mem_reverse.mp hmem))
      · intro hne
        rw [List.prod_reverse]
        exact hproduct e es rfl (by simpa using hne)

/-- A stride factor greater than one is less than the extent of its dimension. -/
theorem strideFactor_le {slice : Slice} {x : ℕ} (hv : slice.Valid x) (hx : 0 < x) :
    slice.strideFactor = 1 ∨ slice.strideFactor ≤ x - 1 := by
  cases slice with
  | index i => exact .inl rfl
  | full => exact .inl rfl
  | extentSlice offset sub stride staticStride =>
    simp only [Slice.strideFactor]
    split
    · next hsub =>
      have hlt := hv.1 (by omega)
      have hle : stride ≤ (sub - 1) * stride := Nat.le_mul_of_pos_left stride (by omega)
      omega
    · exact .inl rfl

theorem makeStrideFactors_le (hv : ValidSlices extents slices) (hextents : ∀ x ∈ extents, x ≤ limit)
    (hone : 1 ≤ limit) (hzero : 0 ∉ extents) : ∀ x ∈ makeStrideFactors slices, x ≤ limit := by
  induction hv with
  | nil => simp [makeStrideFactors]
  | @cons y slice ys slices hs _ ih =>
    rw [List.mem_cons, not_or] at hzero
    intro x hx
    obtain rfl | hx := List.mem_cons.mp hx
    · have hy := hextents y List.mem_cons_self
      obtain h1 | h1 := strideFactor_le hs (Nat.pos_of_ne_zero (Ne.symm hzero.1)) <;> omega
    · exact ih (fun z hz => hextents z (List.mem_cons_of_mem _ hz)) hzero.2 x hx

/-- A stride of the selection is a stride of the source, or reaches an element of the source. -/
theorem subStrides_le (hv : ValidSlices extents slices) (hzero : 0 ∉ extents)
    (hlen : σ.length = extents.length) (hσ : ∀ x ∈ σ, x ≤ limit) (hdot : dot (last extents) σ ≤ limit) :
    ∀ x ∈ subStrides σ slices, x ≤ limit := by
  induction hv generalizing σ with
  | nil =>
    rw [List.length_eq_zero_iff.mp hlen]
    intro x hx
    cases hx
  | @cons y slice ys slices hs _ ih =>
    cases σ with
    | nil => cases hlen
    | cons s σ =>
      rw [List.mem_cons, not_or] at hzero
      have hdot' : (y - 1) * s + dot (last ys) σ ≤ limit := hdot
      have hrest := ih hzero.2 (Nat.succ.inj hlen) (fun x hx => hσ x (List.mem_cons_of_mem _ hx))
        (by omega)
      intro x hx
      rw [subStrides] at hx
      split at hx
      · exact hrest x hx
      · obtain rfl | hx := List.mem_cons.mp hx
        · have hstep := hσ s List.mem_cons_self
          obtain h1 | h1 := strideFactor_le hs (Nat.pos_of_ne_zero (Ne.symm hzero.1))
          · rw [h1, Nat.mul_one]
            exact hstep
          · have hle := Nat.mul_le_mul_left s h1
            rw [Nat.mul_comm s (y - 1)] at hle
            omega
        · exact hrest x hx

/-- The offset stays in the codomain of the source. -/
theorem offset_le (hs : src.Valid) (hv : ValidSlices src.extents slices) :
    (submdspanMapping src slices).offset ≤ src.requiredSpanSize := by
  rw [(represents hs hv).offset]
  cases hoob : anyOob src.extents slices with
  | true =>
    rw [subOffset, hoob]
    exact le_rfl
  | false =>
    rw [subOffset, hoob]
    exact (Mapping.apply_lt (inBox_firstOf hv hoob)).le

/-- A sub-mapping stays in the codomain of its source, and what is computed on the way to one that
is not empty fits the index type. -/
theorem submdspan_mapping_stays_in_codomain (src : Mapping) (slices : List Slice) (hs : src.Valid)
    (hv : ValidSlices src.extents slices) :
    (submdspanMapping src slices).offset + (submdspanMapping src slices).mapping.requiredSpanSize ≤
      src.requiredSpanSize ∧
    ((anyOob src.extents slices = true ∨ 0 ∈ selectedExtents src.extents slices) →
      0 ∈ (submdspanMapping src slices).mapping.extents ∧
        (submdspanMapping src slices).offset ≤ src.requiredSpanSize) ∧
    ∀ limit, src.requiredSpanSize ≤ limit → src.Stored limit → src.Covers → src.PaddedProduct limit →
      0 ∉ selectedExtents src.extents slices →
      (submdspanMapping src slices).offset ≤ limit ∧
      (∀ x ∈ src.strides, x ≤ limit) ∧
      (∀ x ∈ makeStrideFactors slices, x ≤ limit) ∧
      (∀ x ∈ buildSubStrides src (invMapRank 0 [] slices) (makeStrideFactors slices), x ≤ limit) ∧
      (∀ x ∈ (submdspanMapping src slices).mapping.strides, x ≤ limit) := by
  have hr := represents hs hv
  have hlen := hv.length_eq
  refine ⟨?_, ?_, ?_⟩
  · by_cases hzero : 0 ∈ (submdspanMapping src slices).mapping.extents
    · rw [Mapping.requiredSpanSize_eq_zero hzero]
      exact offset_le hs hv
    · have hlast := inBox_last hzero
      have haddress := (submdspan_mapping_addresses_selected src slices hs hv).2 _ hlast
      rw [hr.extents] at hlast
      have hlt := Mapping.apply_lt (inBox_select hv hlast)
      rw [hr.extents] at haddress
      rw [Mapping.requiredSpanSize_eq hzero, ← Mapping.apply_eq_dot length_last, hr.extents]
      omega
  · intro hempty
    refine ⟨?_, offset_le hs hv⟩
    rw [hr.extents]
    obtain hoob | hzero := hempty
    · exact zero_mem_of_anyOob hv hoob
    · exact hzero
  · intro limit hspan hstored hcovers hproduct hzero
    have hbox := inBox_select hv (inBox_last hzero)
    have hsrc : 0 ∉ src.extents := hbox.zero_notMem
    have hstrides := strides_le hs hstored hproduct hspan hsrc
    rw [Mapping.requiredSpanSize_eq hsrc] at hspan
    have hsub := subStrides_le hv hsrc (Mapping.length_strides src) hstrides (by omega)
    refine ⟨?_, hstrides, makeStrideFactors_le hv hstored.1 (by omega) hsrc, ?_, ?_⟩
    · have hoffset := offset_le hs hv
      rw [Mapping.requiredSpanSize_eq hsrc] at hoffset
      omega
    · rw [buildSubStrides_eq hlen.symm]
      exact hsub
    · rw [hr.strides hcovers (by rw [hr.extents]; exact hzero)]
      exact hsub

theorem submdspan_mapping_stays_in_codomain_empty :
    (submdspanMapping (.layoutLeft [3, 4]) [.extentSlice 3 0 1 false, .full]).offset +
        (submdspanMapping (.layoutLeft [3, 4]) [.extentSlice 3 0 1 false,
          .full]).mapping.requiredSpanSize ≤ 12 :=
  (submdspan_mapping_stays_in_codomain (.layoutLeft [3, 4]) [.extentSlice 3 0 1 false, .full] trivial
    (.cons (by decide) (.cons (by decide) .nil))).1

/-- The span of a padded mapping may fit the index type where a stride does not: here the limit is
that of an eight bit signed type, and the padding of the result is 200. -/
theorem submdspan_mapping_padding_exceeds :
    (Mapping.layoutLeftPadded [3, 2, 1] 100).Valid ∧
    (Mapping.layoutLeftPadded [3, 2, 1] 100).Stored 127 ∧
    (Mapping.layoutLeftPadded [3, 2, 1] 100).requiredSpanSize ≤ 127 ∧
    ValidSlices [3, 2, 1] [.full, .index 0, .full] ∧
    0 ∉ selectedExtents [3, 2, 1] [.full, .index 0, .full] ∧
    submdspanMapping (.layoutLeftPadded [3, 2, 1] 100) [.full, .index 0, .full] =
      { mapping := .layoutLeftPadded [3, 1] 200, offset := 0 } := by
  refine ⟨?_, ?_, by decide, .cons (by decide) (.cons (by decide) (.cons (by decide) .nil)), by decide,
    by decide⟩
  · intro e es hes
    obtain ⟨rfl, rfl⟩ := List.cons.inj hes
    exact .inl (by decide)
  · exact ⟨by decide, by decide⟩

end CCForge.Submdspan
