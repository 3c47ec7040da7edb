import CCForge.Submdspan.Layouts

/-!
# Mirrored mappings

Reading the dimensions from the last to the first turns a right layout into a left layout.
Slicing a mapping and slicing its mirror image with the reversed slices give mirrored
results, so what holds of the left layouts holds of the right layouts.
-/

namespace CCForge.Submdspan

open CCForge.Strided

variable {slices : List Slice} {extents σ j : List ℕ} {src m : Mapping} {dr n k : ℕ}
  {r : MappingResult}

namespace Mapping

def mirror : Mapping → Mapping
  | layoutLeft extents => layoutRight extents.reverse
  | layoutRight extents => layoutLeft extents.reverse
  | layoutStride extents strides => layoutStride extents.reverse strides.reverse
  | layoutLeftPadded extents stride1 => layoutRightPadded extents.reverse stride1
  | layoutRightPadded extents strideRm2 => layoutLeftPadded extents.reverse strideRm2

@[simp] theorem extents_mirror (m : Mapping) : m.mirror.extents = m.extents.reverse := by
  cases m <;> rfl

@[simp] theorem mirror_mirror (m : Mapping) : m.mirror.mirror = m := by
  cases m <;> simp [mirror]

theorem PaddingFits.reverse {x s : ℕ} {xs : List ℕ} (h : PaddingFits x xs s) :
    PaddingFits x xs.reverse s := by
  obtain h | h | h := h
  · exact .inl h
  · refine .inr (.inl ?_)
    simpa using h
  · refine .inr (.inr fun y hy => h y (List.mem_reverse.mp hy))

theorem Valid.mirror (h : m.Valid) : m.mirror.Valid := by
  cases m with
  | layoutLeft extents => trivial
  | layoutRight extents => trivial
  | layoutStride extents strides =>
    have hlen : strides.length = extents.length := h
    simp [Mapping.mirror, Valid, hlen]
  | layoutLeftPadded extents stride1 =>
    intro e es hes
    have hrev : extents = e :: es.reverse := by
      rw [← List.reverse_reverse extents, hes, List.reverse_append]
      rfl
    have hfit := (h e es.reverse hrev).reverse
    rwa [List.reverse_reverse] at hfit
  | layoutRightPadded extents strideRm2 =>
    intro e es hes
    have hrev : extents = es.reverse ++ [e] := by
      rw [← List.reverse_reverse extents, hes, List.reverse_cons]
    have hfit := (h e es.reverse hrev).reverse
    rwa [List.reverse_reverse] at hfit

theorem Covers.mirror (h : m.Covers) : m.mirror.Covers := by
  cases m with
  | layoutLeft extents => trivial
  | layoutRight extents => trivial
  | layoutStride extents strides => trivial
  | layoutLeftPadded extents stride1 =>
    intro e es hes hne
    have hrev : extents = e :: es.reverse := by
      rw [← List.reverse_reverse extents, hes, List.reverse_append]
      rfl
    exact h e es.reverse hrev (by simpa using hne)
  | layoutRightPadded extents strideRm2 =>
    intro e es hes hne
    have hrev : extents = es.reverse ++ [e] := by
      rw [← List.reverse_reverse extents, hes, List.reverse_cons]
    exact h e es.reverse hrev (by simpa using hne)

theorem strides_mirror (h : m.Valid) : m.mirror.strides = m.strides.reverse := by
  cases m with
  | layoutLeft extents =>
    rw [mirror, strides_layoutRight, strides_layoutLeft, List.reverse_reverse]
  | layoutRight extents =>
    rw [mirror, strides_layoutRight, strides_layoutLeft, List.reverse_reverse]
  | layoutStride extents strides =>
    have hlen : strides.length = extents.length := h
    rw [mirror, strides_layoutStride hlen, strides_layoutStride (by simpa using hlen)]
  | layoutLeftPadded extents stride1 =>
    cases extents with
    | nil => rfl
    | cons e es =>
      rw [mirror, List.reverse_cons, strides_layoutRightPadded, strides_layoutLeftPadded,
        List.reverse_reverse]
  | layoutRightPadded extents strideRm2 =>
    obtain rfl | ⟨es, e, rfl⟩ := List.eq_nil_or_concat extents
    · rfl
    · rw [List.concat_eq_append, mirror, List.reverse_append, strides_layoutRightPadded,
        List.reverse_reverse]
      exact strides_layoutLeftPadded e es.reverse strideRm2

theorem apply_mirror (h : m.Valid) (hj : j.length = m.extents.length) :
    m.mirror.apply j.reverse = m.apply j := by
  rw [apply_eq_dot (by simpa using hj), apply_eq_dot hj, strides_mirror h,
    dot_reverse (by rw [length_strides, hj])]

theorem requiredSpanSize_mirror (h : m.Valid) : m.mirror.requiredSpanSize = m.requiredSpanSize := by
  by_cases hzero : 0 ∈ m.extents
  · rw [requiredSpanSize_eq_zero hzero, requiredSpanSize_eq_zero (by simpa using hzero)]
  · rw [requiredSpanSize_eq hzero, requiredSpanSize_eq (by simpa using hzero), strides_mirror h,
      extents_mirror, last_reverse, dot_reverse]
    simp

theorem stride_mirror (h : m.Valid) (hk : k < m.extents.length) :
    m.mirror.stride k = m.stride (m.extents.length - 1 - k) := by
  have hget : ∀ (m : Mapping) {k : ℕ}, k < m.extents.length → m.strides[k]? = some (m.stride k) := by
    intro m k hk
    simp [strides, rank, hk]
  have hmirror := hget m.mirror (k := k) (by simpa using hk)
  rw [strides_mirror h, List.getElem?_reverse (by simpa using hk), length_strides,
    hget m (by omega)] at hmirror
  exact (Option.some.inj hmirror).symm

end Mapping

def MappingResult.mirror (r : MappingResult) : MappingResult :=
  { mapping := r.mapping.mirror, offset := r.offset }

/-! ## Reversed slices -/

theorem selectedExtents_reverse (h : extents.length = slices.length) :
    selectedExtents extents.reverse slices.reverse = (selectedExtents extents slices).reverse := by
  induction slices generalizing extents with
  | nil =>
    rw [List.length_eq_zero_iff.mp h]
    rfl
  | cons slice slices ih =>
    cases extents with
    | nil => cases h
    | cons e extents =>
      have hlen := Nat.succ.inj h
      rw [List.reverse_cons, List.reverse_cons, selectedExtents_append (by simpa using hlen), ih hlen]
      cases slice <;> simp [selectedExtents]

theorem subStrides_reverse (h : σ.length = slices.length) :
    subStrides σ.reverse slices.reverse = (subStrides σ slices).reverse := by
  induction slices generalizing σ with
  | nil =>
    rw [List.length_eq_zero_iff.mp h]
    rfl
  | cons slice slices ih =>
    cases σ with
    | nil => cases h
    | cons s σ =>
      have hlen := Nat.succ.inj h
      rw [List.reverse_cons, List.reverse_cons, subStrides_append (by simpa using hlen), ih hlen]
      cases slice <;> simp [subStrides, Slice.isIndex]

theorem anyOob_reverse (h : extents.length = slices.length) :
    anyOob extents.reverse slices.reverse = anyOob extents slices := by
  unfold anyOob
  rw [← List.reverse_zipWith h, List.any_reverse]

theorem ValidSlices.reverse (h : ValidSlices extents slices) :
    ValidSlices extents.reverse slices.reverse := List.rel_reverse h

theorem subOffset_mirror (h : src.Valid) (hlen : src.extents.length = slices.length) :
    subOffset src.mirror slices.reverse = subOffset src slices := by
  unfold subOffset
  rw [Mapping.extents_mirror, anyOob_reverse hlen, Mapping.requiredSpanSize_mirror h,
    List.map_reverse, Mapping.apply_mirror h (by simpa using hlen.symm)]

theorem Represents.mirror (h : Represents src slices r) (hs : src.Valid)
    (hlen : src.extents.length = slices.length) :
    Represents src.mirror slices.reverse r.mirror where
  extents := by
    rw [MappingResult.mirror, Mapping.extents_mirror, Mapping.extents_mirror, h.extents,
      selectedExtents_reverse hlen]
  valid := h.valid.mirror
  apply := by
    intro j hj
    rw [MappingResult.mirror, Mapping.extents_mirror] at hj
    have hjr : InBox j.reverse r.mapping.extents := by
      have hrev := hj.reverse
      rwa [List.reverse_reverse] at hrev
    have hsub : (subStrides src.strides slices).length = r.mapping.extents.length := by
      rw [h.extents, length_subStrides (by rw [Mapping.length_strides, hlen]),
        length_selectedExtents hlen]
    have happly := Mapping.apply_mirror h.valid hjr.length_eq
    rw [List.reverse_reverse, h.apply _ hjr] at happly
    rw [MappingResult.mirror, happly, Mapping.strides_mirror hs,
      subStrides_reverse (by rw [Mapping.length_strides, hlen]), ← dot_reverse, List.reverse_reverse]
    rw [hjr.length_eq, hsub]
  strides := by
    intro hcovers hzero
    have hc : src.Covers := by
      have hm := hcovers.mirror
      rwa [Mapping.mirror_mirror] at hm
    rw [MappingResult.mirror, Mapping.extents_mirror, List.mem_reverse] at hzero
    rw [MappingResult.mirror, Mapping.strides_mirror h.valid, h.strides hc hzero,
      Mapping.strides_mirror hs, subStrides_reverse (by rw [Mapping.length_strides, hlen])]
  offset := h.offset.trans (subOffset_mirror hs hlen).symm

/-! ## The choice of the layout -/

theorem all_take_reverse (p : Slice → Bool) (n : ℕ) :
    (slices.reverse.take n).all p = (slices.drop (slices.length - n)).all p := by
  rw [List.take_reverse, List.all_reverse]

theorem all_drop_reverse (p : Slice → Bool) (n : ℕ) :
    (slices.reverse.drop n).all p = (slices.take (slices.length - n)).all p := by
  rw [List.drop_reverse, List.all_reverse]

theorem lrPreserving_eq (hdr : dr ≤ slices.length) :
    lrPreserving dr slices = llPreserving dr slices.reverse := by
  unfold lrPreserving llPreserving
  dsimp only
  rw [List.length_reverse]
  split
  · rfl
  · next hdr0 =>
    split
    · have hle : (slices.reverse.findIdx fun slice => !slice.isIndex) ≤ slices.length := by
        have hfind : (slices.reverse.findIdx fun slice => !slice.isIndex) ≤ slices.reverse.length :=
          List.findIdx_le_length
        rwa [List.length_reverse] at hfind
      generalize (slices.reverse.findIdx fun slice => !slice.isIndex) = steps at *
      split
      · rfl
      · next hne =>
        rw [List.getElem?_reverse (by omega), all_take_reverse, all_drop_reverse,
          show slices.length - 1 - steps + 1 = slices.length - steps by omega,
          show slices.length - (steps + 1) = slices.length - 1 - steps by omega]
    · rw [List.getElem?_reverse (by omega), all_take_reverse, all_drop_reverse,
        show slices.length - dr + 1 = slices.length - (dr - 1) by omega,
        show slices.length - 1 - (dr - 1) = slices.length - dr by omega]

/-- The stride index of the right layouts, from the left one of the reversed slices. -/
theorem rightPaddedStrideIndex_eq (dr : ℕ) (slices : List Slice) :
    rightPaddedStrideIndex dr slices =
      if leftPaddedStrideIndex dr slices.reverse = slices.length then slices.length
      else slices.length - 1 - leftPaddedStrideIndex dr slices.reverse := by
  unfold rightPaddedStrideIndex leftPaddedStrideIndex
  dsimp only
  rw [List.length_reverse, List.drop_reverse]
  by_cases hranks : dr < 2 ∨ slices.length < 2
  · rw [if_pos hranks, if_pos hranks, if_pos rfl]
  rw [if_neg hranks, if_neg hranks, List.getElem?_reverse (by omega), Nat.sub_zero]
  by_cases hfirst : ¬(slices[slices.length - 1]?).any Slice.isUnitStride
  · rw [if_pos hfirst, if_pos hfirst, if_pos rfl]
  rw [if_neg hfirst, if_neg hfirst]
  have hle : List.findIdx Slice.isUnitStride (slices.take (slices.length - 1)).reverse ≤
      slices.length - 1 := by
    refine List.findIdx_le_length.trans ?_
    rw [List.length_reverse, List.length_take]
    exact Nat.min_le_left _ _
  generalize List.findIdx Slice.isUnitStride (slices.take (slices.length - 1)).reverse = steps at *
  by_cases hnone : steps = slices.length - 1
  · rw [if_pos hnone, if_pos (Or.inl (by omega)), if_pos rfl]
  rw [if_neg hnone]
  by_cases hbound : dr - 2 > slices.length - 2 - steps
  · rw [if_pos hbound, if_pos (Or.inr (by omega)), if_pos rfl]
  have hbound' : ¬(1 + steps = slices.length ∨ dr - 2 > slices.length - 1 - (1 + steps)) := by omega
  rw [if_neg hbound, if_neg hbound']
  have hfulls : ((slices.reverse.take (1 + steps + (dr - 2))).drop (1 + steps)).all Slice.isFull =
      ((slices.take (slices.length - 2 - steps + 1)).drop
        (slices.length - 2 - steps - (dr - 2) + 1)).all Slice.isFull := by
    rw [List.take_reverse, List.drop_reverse, List.all_reverse, List.length_drop, List.drop_take,
      show slices.length - (1 + steps + (dr - 2)) = slices.length - 2 - steps - (dr - 2) + 1 by omega,
      show slices.length - (slices.length - 2 - steps - (dr - 2) + 1) - (1 + steps) =
        slices.length - 2 - steps + 1 - (slices.length - 2 - steps - (dr - 2) + 1) by omega]
  have hfinal : slices.reverse[1 + steps + (dr - 2)]? =
      slices[slices.length - 2 - steps - (dr - 2)]? := by
    rw [List.getElem?_reverse (by omega),
      show slices.length - 1 - (1 + steps + (dr - 2)) = slices.length - 2 - steps - (dr - 2) by omega]
  rw [hfulls, hfinal]
  split
  · split
    · rw [if_neg (by omega)]
      omega
    · rw [if_pos rfl]
  · rw [if_pos rfl]

theorem leftPaddedStrideIndex_le (dr : ℕ) (slices : List Slice) :
    leftPaddedStrideIndex dr slices ≤ slices.length := by
  unfold leftPaddedStrideIndex
  dsimp only
  have hle : (slices.drop 1).findIdx Slice.isUnitStride ≤ (slices.drop 1).length :=
    List.findIdx_le_length
  rw [List.length_drop] at hle
  split
  · exact le_rfl
  split
  · exact le_rfl
  split
  · exact le_rfl
  split
  · split
    · omega
    · exact le_rfl
  · exact le_rfl

/-! ## The right layouts -/

theorem makeRightPadded_eq (padding : ℕ) :
    Mapping.makeRightPadded extents.reverse padding = (Mapping.makeLeftPadded extents padding).mirror := by
  unfold Mapping.makeRightPadded Mapping.makeLeftPadded Mapping.mirror
  rw [List.length_reverse]
  congr 1
  split
  · next hlen =>
    rw [List.getD_eq_getElem?_getD, List.getElem?_reverse (by omega), List.getD_eq_getElem?_getD,
      Nat.sub_self]
  · rfl

/-- The facts that the right overloads share: each part of a result is that of the mirrored source. -/
structure Mirrored (src : Mapping) (slices : List Slice) : Prop where
  subextents : subextents src.extents.reverse slices.reverse =
    (CCForge.Submdspan.subextents src.extents slices).reverse
  offset : subOffset src.mirror slices.reverse = subOffset src slices
  strided : stridedResult src.mirror slices.reverse = (stridedResult src slices).mirror

theorem mirrored (src : Mapping) (hs : src.Valid) (hv : ValidSlices src.extents slices) : Mirrored src slices := by
  have hlen := hv.length_eq
  have hsub : subextents src.extents.reverse slices.reverse = (subextents src.extents slices).reverse := by
    rw [subextents_eq, subextents_eq, selectedExtents_reverse hlen]
  refine ⟨hsub, subOffset_mirror hs hlen, ?_⟩
  have hstrides : buildSubStrides src.mirror (invMapRank 0 [] slices.reverse)
      (makeStrideFactors slices.reverse) =
        (buildSubStrides src (invMapRank 0 [] slices) (makeStrideFactors slices)).reverse := by
    rw [buildSubStrides_eq (by simpa using hlen.symm), buildSubStrides_eq hlen.symm,
      Mapping.strides_mirror hs, subStrides_reverse (by rw [Mapping.length_strides, hlen])]
  unfold stridedResult
  rw [Mapping.extents_mirror, hsub, hstrides, subOffset_mirror hs hlen]
  rfl

/-- The stride that the padded branch of a right layout asks for. -/
theorem stride_rightPaddedStrideIndex (src : Mapping) (hs : src.Valid) (hlen : src.extents.length = slices.length)
    (hdr : keptRank slices = dr) (hi : leftPaddedStrideIndex dr slices ≠ slices.length) :
    src.mirror.stride (rightPaddedStrideIndex dr slices.reverse) =
      src.stride (leftPaddedStrideIndex dr slices) := by
  obtain ⟨unit, mid, run, hslices, -, -, hrun, hindex⟩ := run_of_leftPaddedStrideIndex hdr hi
  have hpos : 1 ≤ leftPaddedStrideIndex dr slices := by omega
  have hle := leftPaddedStrideIndex_le dr slices
  rw [rightPaddedStrideIndex_eq, List.reverse_reverse, List.length_reverse, if_neg hi,
    Mapping.stride_mirror hs (by omega)]
  congr 1
  omega

theorem rightPaddedStrideIndex_ne (hi : rightPaddedStrideIndex dr slices.reverse ≠ slices.length) :
    leftPaddedStrideIndex dr slices ≠ slices.length := by
  intro h
  rw [rightPaddedStrideIndex_eq, List.reverse_reverse, List.length_reverse, if_pos h] at hi
  exact hi rfl

theorem rightPaddedStrideIndex_eq_length (hne : slices ≠ [])
    (hi : ¬rightPaddedStrideIndex dr slices.reverse ≠ slices.length) :
    leftPaddedStrideIndex dr slices = slices.length := by
  by_contra h
  refine hi ?_
  rw [rightPaddedStrideIndex_eq, List.reverse_reverse, List.length_reverse, if_neg h]
  have hpos := List.length_pos_iff.mpr hne
  omega

theorem submdspanMappingRight_eq (hv : ValidSlices extents slices) :
    submdspanMappingRight extents.reverse slices.reverse = (submdspanMappingLeft extents slices).mirror := by
  have hm := mirrored (.layoutLeft extents) trivial hv
  have hkept := length_subextents hv
  have hlen := hv.length_eq
  have hle : keptRank slices ≤ slices.length := List.countP_le_length
  unfold submdspanMappingRight submdspanMappingLeft
  dsimp only
  rw [show subextents extents.reverse slices.reverse = (subextents extents slices).reverse from
    hm.subextents, List.length_reverse, List.length_reverse,
    show subOffset (.layoutRight extents.reverse) slices.reverse = _ from hm.offset,
    show stridedResult (.layoutRight extents.reverse) slices.reverse = _ from hm.strided,
    lrPreserving_eq (by rw [List.length_reverse]; omega), List.reverse_reverse]
  split
  · rfl
  next hsr =>
  split
  · rfl
  split
  · rfl
  by_cases hi : rightPaddedStrideIndex (subextents extents slices).length slices.reverse ≠ extents.length
  · have hleft := rightPaddedStrideIndex_ne (hlen ▸ hi)
    rw [if_pos hi, if_pos (hlen ▸ hleft), makeRightPadded_eq]
    have hstride := stride_rightPaddedStrideIndex (.layoutLeft extents) trivial hlen hkept.symm hleft
    rw [show (Mapping.layoutRight extents.reverse).stride _ = _ from hstride]
    rfl
  · have hne : slices ≠ [] := by
      rintro rfl
      exact hsr hlen
    have hleft := rightPaddedStrideIndex_eq_length hne (hlen ▸ hi)
    rw [if_neg hi, if_neg (by rw [hleft, hlen]; exact not_not_intro rfl)]

theorem submdspanMappingRightPadded_eq {stride : ℕ}
    (hs : (Mapping.layoutLeftPadded extents stride).Valid) (hv : ValidSlices extents slices) :
    submdspanMappingRightPadded extents.reverse stride slices.reverse =
      (submdspanMappingLeftPadded extents stride slices).mirror := by
  have hm := mirrored (.layoutLeftPadded extents stride) hs hv
  have hkept := length_subextents hv
  have hlen := hv.length_eq
  unfold submdspanMappingRightPadded submdspanMappingLeftPadded
  dsimp only
  rw [show subextents extents.reverse slices.reverse = (subextents extents slices).reverse from
    hm.subextents, List.length_reverse, List.length_reverse,
    show subOffset (.layoutRightPadded extents.reverse stride) slices.reverse = _ from hm.offset,
    show stridedResult (.layoutRightPadded extents.reverse stride) slices.reverse = _ from hm.strided]
  split
  · rfl
  next hsr =>
  have hlast : slices.reverse[extents.length - 1]? = slices[0]? := by
    rw [List.getElem?_reverse (by omega)]
    congr 1
    omega
  rw [hlast]
  split
  · rfl
  split
  · rfl
  by_cases hi : rightPaddedStrideIndex (subextents extents slices).length slices.reverse ≠ extents.length
  · have hleft := rightPaddedStrideIndex_ne (hlen ▸ hi)
    rw [if_pos hi, if_pos (hlen ▸ hleft), makeRightPadded_eq]
    have hstride := stride_rightPaddedStrideIndex (.layoutLeftPadded extents stride) hs hlen
      hkept.symm hleft
    rw [show (Mapping.layoutRightPadded extents.reverse stride).stride _ = _ from hstride]
    rfl
  · have hne : slices ≠ [] := by
      rintro rfl
      exact hsr hlen
    have hleft := rightPaddedStrideIndex_eq_length hne (hlen ▸ hi)
    rw [if_neg hi, if_neg (by rw [hleft, hlen]; exact not_not_intro rfl)]

/-- Whatever the source is, the result has the extents and the strides of the selection. -/
theorem represents (hs : src.Valid) (hv : ValidSlices src.extents slices) :
    Represents src slices (submdspanMapping src slices) := by
  cases src with
  | layoutLeft extents => exact represents_layoutLeft hv
  | layoutStride extents strides => exact represents_layoutStride hs hv
  | layoutLeftPadded extents stride1 => exact represents_layoutLeftPadded hs hv
  | layoutRight extents =>
    have hr := represents_layoutLeft hv.reverse
    have hm := hr.mirror trivial hv.reverse.length_eq
    rw [← submdspanMappingRight_eq hv.reverse, List.reverse_reverse, List.reverse_reverse] at hm
    rwa [Mapping.mirror, List.reverse_reverse] at hm
  | layoutRightPadded extents strideRm2 =>
    have hs' : (Mapping.layoutLeftPadded extents.reverse strideRm2).Valid := hs.mirror
    have hr := represents_layoutLeftPadded hs' hv.reverse
    have hm := hr.mirror hs' hv.reverse.length_eq
    rw [← submdspanMappingRightPadded_eq hs' hv.reverse, List.reverse_reverse,
      List.reverse_reverse] at hm
    rwa [Mapping.mirror, List.reverse_reverse] at hm

end CCForge.Submdspan
