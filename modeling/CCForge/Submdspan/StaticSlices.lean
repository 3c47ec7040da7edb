import CCForge.Linalg.Arithmetic
import CCForge.Linalg.Norms
import CCForge.Submdspan.Canonical

/-!
# The check of static slices

`is_valid_static_slice_type` converts the constants of a slice to `uintmax_t` and compares them with
a static extent of the source. It divides where the last index is a product, so no value wraps but a
constant that was negative, and that one is rejected.
-/

namespace CCForge.Submdspan

open CCForge.Linalg (IndexType Arithmetic uintmax)

/-- `static_index_or`. The conversion of a negative constant wraps. -/
def Component.staticIndexOr (fallback : ℤ) (c : Component) : ℤ :=
  if c.isStatic then uintmax.convert c.value else fallback

/-- `is_valid_static_slice_type` for a dimension of the source. -/
def CanonicalSlice.isValidStaticSliceType (A : Arithmetic) (source : Component)
    (slice : CanonicalSlice) : Option Bool :=
  if source.isStatic then
    let x := source.value
    match slice with
    | full => some true
    | extentSlice offset extent stride =>
      let offset := offset.staticIndexOr 0
      let extent := extent.staticIndexOr 0
      let stride := stride.staticIndexOr 1
      if offset > x ∨ extent > x then some false
      else if extent = 0 then some true
      else if offset ≥ x then some false
      else if extent = 1 then some true
      else if stride = 0 then some false
      else do
        let steps ← A.sub uintmax extent 1
        let room ← A.sub uintmax x offset
        let last ← A.sub uintmax room 1
        let quotient ← A.div uintmax last stride
        some (steps ≤ quotient)
    | index i => if i.isStatic then some (uintmax.convert i.value < x) else some true
  else some true

/-- The indices of the slice are all below the extent. An empty slice may start at the extent. -/
def Inside (x offset extent stride : ℤ) : Prop :=
  0 ≤ offset ∧ offset ≤ x ∧ 0 ≤ extent ∧ extent ≤ x ∧
    (0 < extent → offset + (extent - 1) * stride < x ∧ (1 < extent → 0 < stride))

instance (x offset extent stride : ℤ) : Decidable (Inside x offset extent stride) :=
  inferInstanceAs (Decidable (_ ∧ _))

variable {A : Arithmetic} {T : IndexType} {x offset extent stride value fallback : ℤ} {c : Component}
  {source : Component} {slice : CanonicalSlice}

/-! ## The constants -/

/-- A constant is itself, or it was negative and exceeds every value of the index type. -/
theorem convert_cases (hw : T.width ≤ 64) (h : T.Holds value) :
    0 ≤ value ∧ uintmax.convert value = value ∨ value < 0 ∧ T.max < uintmax.convert value := by
  obtain ⟨hlo, hhi⟩ := h
  by_cases h0 : 0 ≤ value
  · exact .inl ⟨h0, Linalg.uintmax_convert h0 (hhi.trans (Linalg.max_le_uintmax hw))⟩
  · refine .inr ⟨by omega, ?_⟩
    cases hs : T.signed with
    | false =>
      rw [IndexType.min_unsigned hs] at hlo
      exact absurd hlo h0
    | true =>
      rw [IndexType.min_signed hs] at hlo
      have hmax := IndexType.max_signed hs
      have hpow : (2 : ℤ) ^ (T.width - 1) ≤ 2 ^ 63 := by
        exact_mod_cast Nat.pow_le_pow_right (show 0 < 2 by decide) (show T.width - 1 ≤ 63 by omega)
      have hconvert : uintmax.convert value = value + 2 ^ 64 := by
        change value % 2 ^ 64 = _
        rw [← Int.add_emod_right, Int.emod_eq_of_lt (by omega) (by omega)]
      omega

theorem staticIndexOr_cases (hw : T.width ≤ 64) (h : T.Holds c.value) (h0 : 0 ≤ fallback) :
    0 ≤ c.staticOr fallback ∧ c.staticIndexOr fallback = c.staticOr fallback ∨
      c.staticOr fallback < 0 ∧ T.max < c.staticIndexOr fallback := by
  unfold Component.staticOr Component.staticIndexOr
  split
  · exact convert_cases hw h
  · exact .inl ⟨h0, rfl⟩

theorem staticIndexOr_le (h0 : 0 ≤ fallback) (hle : fallback ≤ uintmax.max) :
    0 ≤ c.staticIndexOr fallback ∧ c.staticIndexOr fallback ≤ uintmax.max := by
  unfold Component.staticIndexOr
  split
  · have hheld := IndexType.holds_convert (T := uintmax) (by decide) c.value
    rwa [IndexType.Holds, IndexType.min_unsigned rfl] at hheld
  · exact ⟨h0, hle⟩

/-! ## The comparison -/

/-- The division is exact where the last index is one below the extent. -/
theorem le_quotient_iff_lt (h : 0 < stride) :
    extent - 1 ≤ (x - offset - 1) / stride ↔ offset + (extent - 1) * stride < x := by
  rw [Int.le_ediv_iff_mul_le h]
  omega

/-- A negative stride may be replaced by one that leads out of the source at once. -/
theorem inside_of_large_stride {large : ℤ} (h : stride < 0) (hx : x < large) :
    Inside x offset extent large ↔ Inside x offset extent stride := by
  unfold Inside
  refine and_congr_right fun ho => and_congr_right fun _ => and_congr_right fun _ =>
    and_congr_right fun _ => imp_congr_right fun hpos => ?_
  obtain rfl | hmore : extent = 1 ∨ 1 < extent := by omega
  · simp
  · have hmul : large ≤ (extent - 1) * large := le_mul_of_one_le_left (by omega) (by omega)
    exact iff_of_false (fun hin => absurd hin.1 (by omega)) fun hin => absurd (hin.2 hmore) (by omega)

/-- What the conversion does to the constants makes no difference to the condition. -/
theorem inside_converted {offset' extent' stride' : ℤ} {bound : ℤ} (hx : x ≤ bound)
    (hoffset : 0 ≤ offset ∧ offset' = offset ∨ offset < 0 ∧ bound < offset')
    (hextent : 0 ≤ extent ∧ extent' = extent ∨ extent < 0 ∧ bound < extent')
    (hstride : 0 ≤ stride ∧ stride' = stride ∨ stride < 0 ∧ bound < stride') :
    Inside x offset' extent' stride' ↔ Inside x offset extent stride := by
  obtain ⟨-, rfl⟩ | ⟨hneg, hlarge⟩ := hoffset
  · obtain ⟨-, rfl⟩ | ⟨hneg, hlarge⟩ := hextent
    · obtain ⟨-, rfl⟩ | ⟨hneg, hlarge⟩ := hstride
      · exact Iff.rfl
      · exact inside_of_large_stride hneg (by omega)
    · exact iff_of_false (fun h => absurd h.2.2.2.1 (by omega)) fun h => absurd h.2.2.1 (by omega)
  · exact iff_of_false (fun h => absurd h.2.1 (by omega)) fun h => absurd h.1 (by omega)

/-- The slice with its constants, or what stands for them, as `uintmax_t`. -/
def CanonicalSlice.converted : CanonicalSlice → CanonicalSlice
  | full => full
  | index i => index ⟨uintmax.convert i.value, i.isStatic⟩
  | extentSlice offset extent stride =>
    extentSlice ⟨offset.staticIndexOr 0, true⟩ ⟨extent.staticIndexOr 0, true⟩
      ⟨stride.staticIndexOr 1, true⟩

/-- The check is the one of exact arithmetic for the converted constants. -/
theorem isValidStaticSliceType_eq (hx : x ≤ uintmax.max) :
    slice.isValidStaticSliceType A ⟨x, true⟩ = some (decide (slice.converted.FitsStatic ⟨x, true⟩)) := by
  cases slice with
  | full => rfl
  | index i =>
    unfold CanonicalSlice.isValidStaticSliceType CanonicalSlice.converted CanonicalSlice.FitsStatic
    by_cases hs : i.isStatic = true <;> simp [hs]
  | extentSlice offset extent stride =>
    obtain ⟨hoffset, -⟩ := staticIndexOr_le (c := offset) le_rfl (Int.natCast_nonneg uintmax.max)
    obtain ⟨hextent, hextent'⟩ := staticIndexOr_le (c := extent) le_rfl (Int.natCast_nonneg uintmax.max)
    obtain ⟨hstride, -⟩ := staticIndexOr_le (c := stride) zero_le_one (show 1 ≤ (uintmax.max : ℤ) by decide)
    unfold CanonicalSlice.isValidStaticSliceType CanonicalSlice.converted CanonicalSlice.FitsStatic
    simp only [if_true, Component.staticOr]
    generalize offset.staticIndexOr 0 = offset at *
    generalize extent.staticIndexOr 0 = extent at *
    generalize stride.staticIndexOr 1 = stride at *
    by_cases hlarge : offset > x ∨ extent > x
    · simp only [if_pos hlarge, decide_false]
    by_cases hempty : extent = 0
    · simp only [if_neg hlarge, if_pos hempty, decide_true]
    by_cases hend : offset ≥ x
    · simp only [if_neg hlarge, if_neg hempty, if_pos hend, decide_false]
    by_cases hone : extent = 1
    · simp only [if_neg hlarge, if_neg hempty, if_neg hend, if_pos hone, decide_true]
    by_cases hzero : stride = 0
    · simp only [if_neg hlarge, if_neg hempty, if_neg hend, if_neg hone, if_pos hzero, decide_false]
    simp only [if_neg hlarge, if_neg hempty, if_neg hend, if_neg hone, if_neg hzero]
    rw [Arithmetic.sub_of_nonneg (by omega) (by omega), Option.bind_eq_bind, Option.bind_some,
      Arithmetic.sub_of_nonneg (by omega) (by omega), Option.bind_some,
      Arithmetic.sub_of_nonneg (by omega) (by omega), Option.bind_some,
      Arithmetic.div_of_pos (by omega) (by omega) (by omega), Option.bind_some]

/-- The exact check decides whether the slice is inside. -/
theorem fitsStatic_iff_inside (hoffset : 0 ≤ offset) (hextent : 0 ≤ extent) (hstride : 0 ≤ stride) :
    (CanonicalSlice.extentSlice ⟨offset, true⟩ ⟨extent, true⟩ ⟨stride, true⟩).FitsStatic ⟨x, true⟩ ↔
      Inside x offset extent stride := by
  unfold CanonicalSlice.FitsStatic Inside
  simp only [if_true, Component.staticOr]
  by_cases hlarge : offset > x ∨ extent > x
  · rw [if_pos hlarge]
    exact iff_of_false not_false fun ⟨_, ho, _, he, _⟩ => by omega
  rw [if_neg hlarge]
  -- an empty slice has no last index, so its stride may be anything
  by_cases hempty : extent = 0
  · rw [if_pos hempty]
    exact iff_of_true trivial ⟨hoffset, by omega, hextent, by omega, fun hpos => absurd hpos (by omega)⟩
  rw [if_neg hempty]
  have hpos : 0 < extent := by omega
  have hmul : 0 ≤ (extent - 1) * stride := Int.mul_nonneg (by omega) hstride
  by_cases hend : offset ≥ x
  · rw [if_pos hend]
    exact iff_of_false not_false fun ⟨_, _, _, _, hin⟩ => absurd (hin hpos).1 (by omega)
  rw [if_neg hend]
  -- nor does the stride of a single index matter
  by_cases hone : extent = 1
  · rw [if_pos hone]
    subst hone
    exact iff_of_true trivial
      ⟨hoffset, by omega, hextent, by omega, fun _ => ⟨by omega, fun hmore => absurd hmore (by omega)⟩⟩
  rw [if_neg hone]
  by_cases hzero : stride = 0
  · rw [if_pos hzero]
    exact iff_of_false not_false fun ⟨_, _, _, _, hin⟩ => absurd ((hin hpos).2 (by omega)) (by omega)
  rw [if_neg hzero, le_quotient_iff_lt (by omega)]
  constructor
  · intro hlast
    exact ⟨hoffset, by omega, hextent, by omega, fun _ => ⟨hlast, fun _ => by omega⟩⟩
  · rintro ⟨-, -, -, -, hin⟩
    exact (hin hpos).1

theorem staticIndexOr_of_isCanonical (hw : T.width ≤ 64) (h : c.IsCanonical T) :
    c.staticIndexOr fallback = c.staticOr fallback := by
  unfold Component.staticIndexOr Component.staticOr
  split
  · next hs => exact Linalg.uintmax_convert (h.2 hs) (h.1.2.trans (Linalg.max_le_uintmax hw))
  · rfl

/-- Where the callers give canonical slices the check is the one of exact arithmetic. -/
theorem isValidStaticSliceType_of_isCanonical (hw : T.width ≤ 64) (hx : x ≤ T.max)
    (hslice : slice.IsCanonical T) :
    slice.isValidStaticSliceType A ⟨x, true⟩ = some (decide (slice.FitsStatic ⟨x, true⟩)) := by
  rw [isValidStaticSliceType_eq (hx.trans (Linalg.max_le_uintmax hw))]
  cases slice with
  | full => rfl
  | index i =>
    by_cases hs : i.isStatic = true
    · have hconvert : uintmax.convert i.value = i.value :=
        Linalg.uintmax_convert (hslice.2 hs) (hslice.1.2.trans (Linalg.max_le_uintmax hw))
      simp only [CanonicalSlice.converted, hconvert]
    · unfold CanonicalSlice.converted CanonicalSlice.FitsStatic
      simp [hs]
  | extentSlice offset extent stride =>
    obtain ⟨hoffset, hextent, hstride, -⟩ := hslice
    simp only [CanonicalSlice.converted, staticIndexOr_of_isCanonical hw hoffset,
      staticIndexOr_of_isCanonical hw hextent, staticIndexOr_of_isCanonical hw hstride]
    rfl

/-! ## The check is exact -/

/-- In every arithmetic the check accepts an `extent_slice` exactly where its constants are not
negative and its indices lie in the source. -/
theorem static_slice_valid_iff (A : Arithmetic) {T : IndexType} {x : ℤ}
    {offset extent stride : Component} (hw : T.width ≤ 64) (hx : T.Holds x)
    (hoffset : T.Holds offset.value) (hextent : T.Holds extent.value) (hstride : T.Holds stride.value) :
    ∃ b, (CanonicalSlice.extentSlice offset extent stride).isValidStaticSliceType A ⟨x, true⟩ = some b ∧
      (b = true ↔ Inside x (offset.staticOr 0) (extent.staticOr 0) (stride.staticOr 1)) := by
  refine ⟨_, isValidStaticSliceType_eq (hx.2.trans (Linalg.max_le_uintmax hw)), ?_⟩
  have honemax : 1 ≤ (uintmax.max : ℤ) := by decide
  rw [decide_eq_true_iff, CanonicalSlice.converted,
    fitsStatic_iff_inside (staticIndexOr_le le_rfl (Int.natCast_nonneg _)).1
      (staticIndexOr_le le_rfl (Int.natCast_nonneg _)).1 (staticIndexOr_le zero_le_one honemax).1]
  exact inside_converted hx.2 (staticIndexOr_cases hw hoffset le_rfl)
    (staticIndexOr_cases hw hextent le_rfl) (staticIndexOr_cases hw hstride zero_le_one)

theorem static_slice_valid_at_end :
    ∃ b, (CanonicalSlice.extentSlice ⟨4, true⟩ ⟨3, true⟩ ⟨-3, false⟩).isValidStaticSliceType .checked
      ⟨7, true⟩ = some b ∧ (b = true ↔ Inside 7 4 3 1) :=
  static_slice_valid_iff .checked (T := .int) (by decide) (by decide) (by decide) (by decide) (by decide)

/-- A negative offset is rejected, though the last index is below the extent. -/
theorem static_slice_negative_offset :
    (CanonicalSlice.extentSlice ⟨-1, true⟩ ⟨1, true⟩ ⟨1, true⟩).isValidStaticSliceType .machine
      ⟨5, true⟩ = some false ∧
    (-1 ≤ (5 : ℤ) ∧ 1 ≤ (5 : ℤ) ∧
      (0 < (1 : ℤ) → -1 + (1 - 1) * 1 < (5 : ℤ) ∧ (1 < (1 : ℤ) → 0 < (1 : ℤ)))) := by
  decide

end CCForge.Submdspan
