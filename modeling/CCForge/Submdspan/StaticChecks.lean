import CCForge.Linalg.Arithmetic
import CCForge.Linalg.Norms
import CCForge.Linalg.Packed
import CCForge.Submdspan.PaddedGuarantees

/-!
# Checks of static extents

The class templates of the padded and the packed layouts check at compile time that the index type
represents the strides and the products of static extents. Each check is exact in every arithmetic,
so no value that it computes wraps.
-/

namespace CCForge.Submdspan.StaticChecks

open CCForge.Linalg (IndexType Arithmetic uintmax uintmaxMax)

/-- `size_t`. -/
abbrev size : IndexType := uintmax

/-- `numeric_limits::digits`. -/
def digits (T : IndexType) : ℕ := if T.signed then T.width - 1 else T.width

/-- `least_multiple_at_least<I>`. -/
def leastMultipleAtLeast (A : Arithmetic) (I : IndexType) (alignment value : ℤ) : Option ℤ :=
  if alignment = 0 then some value
  else if value = 0 then some 0
  else do
    let rest ← A.rem I.promoted value alignment
    let remainder ← A.convert I rest
    if remainder = 0 then some value
    else
      let gap ← A.sub I.promoted alignment remainder
      let sum ← A.add I.promoted value gap
      A.convert I sum

/-- `static_size_limit`. -/
def staticSizeLimit (T : IndexType) : ℕ := if digits T < digits size then T.max else size.max

/-- `static_stride_representable`. -/
def staticStrideRepresentable (A : Arithmetic) (T : IndexType) (padding extent : ℕ) : Option Bool :=
  let limit := staticSizeLimit T
  if extent > limit then some false
  else if padding = 0 then some true
  else do
    let remainder ← A.rem size extent padding
    if remainder = 0 then some true
    else
      let gap ← A.sub size padding remainder
      let room ← A.sub size limit extent
      some (gap ≤ room)

/-- The factors of the product. `paddedStride` replaces the extent of the dimension `paddedDim`. -/
def staticFactors (staticExtents : List ℕ) (paddedDim paddedStride : ℕ) : List ℕ :=
  staticExtents.mapIdx fun r extent => if r = paddedDim then paddedStride else extent

/-- The second loop of `static_product_representable`. The comparison is `cmp_greater`. -/
def productLoop (A : Arithmetic) (Limit : IndexType) (limit : ℤ) : List ℕ → ℤ → Option Bool
  | [], _ => some true
  | factor :: factors, product => do
    let quotient ← A.div Limit.promoted limit product
    if factor > quotient then some false
    else
      let converted ← A.convert Limit factor
      let next ← A.mul Limit.promoted product converted
      let product ← A.convert Limit next
      productLoop A Limit limit factors product

/-- `static_product_representable`. -/
def staticProductRepresentable (A : Arithmetic) (Limit : IndexType) (limit : ℤ)
    (staticExtents : List ℕ) (paddedDim paddedStride : ℕ) : Option Bool :=
  let factors := staticFactors staticExtents paddedDim paddedStride
  if 0 ∈ factors then some true else productLoop A Limit limit factors 1

/-- The template argument of a layout. A dynamic extent is absent. -/
inductive ExtentsArgument where
  | extents (indexType : IndexType) (staticExtents : List (Option ℕ))
  | other
  deriving DecidableEq, Repr

def rankDynamic (staticExtents : List (Option ℕ)) : ℕ := staticExtents.countP Option.isNone

/-- `static_extent(r)`, which is `dynamic_extent` for a dynamic extent. -/
def staticExtent (staticExtents : List (Option ℕ)) (r : ℕ) : ℕ :=
  (staticExtents.getD r none).getD uintmaxMax

/-- `__packed_static_product_representable`. -/
def packedStaticProductRepresentable (A : Arithmetic) : ExtentsArgument → Option Bool
  | .other => some false
  | .extents indexType staticExtents =>
    if staticExtents.length ≠ 2 then some false
    else if rankDynamic staticExtents ≠ 0 then some true
    else do
      let n ← A.convert uintmax (staticExtent staticExtents 0)
      let maximum ← A.convert uintmax indexType.max
      if n = uintmax.max then some false
      else
        let successor ← A.add uintmax n 1
        let quotient ← A.div uintmax maximum successor
        some (n ≤ quotient)

/-! ## The mandates of the padded layouts -/

/-- `first_static_extent` or `last_static_extent`. A dynamic extent is absent. -/
def paddedStaticExtent (side : Side) (staticExtents : List (Option ℕ)) : Option ℕ :=
  match side with
  | .left => staticExtents.getD 0 none
  | .right => staticExtents.getD (staticExtents.length - 1) none

/-- The dimension that is padded. -/
def paddedDim (side : Side) (rank : ℕ) : ℕ :=
  match side with
  | .left => 0
  | .right => rank - 1

/-- The assertion about the static stride. A padding value is absent where it is `dynamic_extent`. -/
def strideMandate (A : Arithmetic) (side : Side) (T : IndexType) (paddingValue : Option ℕ)
    (staticExtents : List (Option ℕ)) : Option Bool :=
  if staticExtents.length ≤ 1 then some true
  else
    match paddingValue, paddedStaticExtent side staticExtents with
    | some padding, some extent => staticStrideRepresentable A T padding extent
    | _, _ => some true

/-- `static_padding_stride`. -/
def staticPaddingStride (A : Arithmetic) (side : Side) (T : IndexType) (paddingValue : Option ℕ)
    (staticExtents : List (Option ℕ)) : Option ℤ :=
  if staticExtents.length ≤ 1 then some 1
  else
    match paddingValue, paddedStaticExtent side staticExtents with
    | some padding, some extent => do
      let representable ← staticStrideRepresentable A T padding extent
      if representable then leastMultipleAtLeast A size padding extent else some 0
    | _, _ => some uintmaxMax

/-- The static assertions of a mapping class of a padded layout. -/
def mandates (A : Arithmetic) (side : Side) (T : IndexType) (paddingValue : Option ℕ)
    (staticExtents : List (Option ℕ)) : Option Bool := do
  let rank := staticExtents.length
  let extents := (List.range rank).map (staticExtent staticExtents)
  let space ←
    if rankDynamic staticExtents ≠ 0 then some true
    else staticProductRepresentable A T T.max extents uintmaxMax 0
  let inRange := paddingValue.all fun padding => padding ≤ T.max
  let stride ← strideMandate A side T paddingValue staticExtents
  let paddingStride ← staticPaddingStride A side T paddingValue staticExtents
  let product ←
    if rank ≤ 1 ∨ paddingValue = none ∨ rankDynamic staticExtents ≠ 0 then some true
    else
      staticProductRepresentable A size (staticSizeLimit T) extents (paddedDim side rank)
        paddingStride.toNat
  some (space && inRange && stride && product)

/-- The least multiple of the padding that is not below the extent, or the extent where there is no
padding. -/
def IsPaddedExtent (padding extent padded : ℕ) : Prop :=
  if padding = 0 then padded = extent else IsLeast {m | padding ∣ m ∧ extent ≤ m} padded

variable {A : Arithmetic} {T I Limit : IndexType} {padding extent n factor : ℕ}
  {factors : List ℕ} {limit product : ℤ}

/-! ## The padded extent -/

theorem isPaddedExtent_leastMultiple (padding extent : ℕ) :
    IsPaddedExtent padding extent (Submdspan.leastMultipleAtLeast padding extent) := by
  unfold IsPaddedExtent
  split
  · next h => exact leastMultipleAtLeast_of_dvd (.inl h)
  · next h => exact leastMultipleAtLeast_isLeast h

/-- An extent between two multiples is rounded up by what its remainder lacks. -/
theorem leastMultiple_of_rem (hp : padding ≠ 0) (hr : extent % padding ≠ 0) :
    Submdspan.leastMultipleAtLeast padding extent = extent + (padding - extent % padding) := by
  unfold Submdspan.leastMultipleAtLeast
  have hzero : extent ≠ 0 := by
    rintro rfl
    exact hr (Nat.zero_mod padding)
  rw [if_neg hp, if_neg hzero]
  exact if_neg hr

theorem le_promoted {x : ℤ} (h : x ≤ I.max) : x ≤ (I.promoted.max : ℕ) :=
  h.trans (by exact_mod_cast I.max_le_promoted)

theorem leastMultipleAtLeast_eq (hI : 0 < I.width) (hp : padding ≤ I.max)
    (h : Submdspan.leastMultipleAtLeast padding extent ≤ I.max) :
    leastMultipleAtLeast A I padding extent =
      some (Submdspan.leastMultipleAtLeast padding extent : ℤ) := by
  have he : extent ≤ I.max := (le_leastMultipleAtLeast padding extent).trans h
  unfold leastMultipleAtLeast
  by_cases hzero : padding = 0
  · rw [if_pos (by exact_mod_cast hzero), leastMultipleAtLeast_of_dvd (.inl hzero)]
  by_cases hextent : extent = 0
  · rw [if_neg (by exact_mod_cast hzero), if_pos (by exact_mod_cast hextent), hextent,
      leastMultipleAtLeast_of_dvd (.inr (Nat.dvd_zero padding))]
    rfl
  have hlt := Nat.mod_lt extent (Nat.pos_of_ne_zero hzero)
  have hrem : A.rem I.promoted extent padding = some ((extent % padding : ℕ) : ℤ) :=
    Arithmetic.rem_of_pos (Int.natCast_nonneg extent) (le_promoted (by exact_mod_cast he)) (by omega)
  have hremainder : A.convert I ((extent % padding : ℕ) : ℤ) = some ((extent % padding : ℕ) : ℤ) :=
    Arithmetic.convert_of_nonneg hI (Int.natCast_nonneg _) (by omega)
  rw [if_neg (by exact_mod_cast hzero), if_neg (by exact_mod_cast hextent)]
  simp only [Option.bind_eq_bind, hrem, hremainder, Option.bind_some]
  by_cases hr : extent % padding = 0
  · rw [if_pos (by exact_mod_cast hr), leastMultipleAtLeast_of_dvd (.inr (Nat.dvd_of_mod_eq_zero hr))]
  · have hround := leastMultiple_of_rem hzero hr
    rw [hround] at h ⊢
    have hgap : A.sub I.promoted padding ((extent % padding : ℕ) : ℤ) = some _ :=
      Arithmetic.sub_of_nonneg (by omega) (le_promoted (by omega))
    have hsum : A.add I.promoted extent ((padding : ℤ) - (extent % padding : ℕ)) = some _ :=
      Arithmetic.add_of_nonneg (by omega) (le_promoted (by omega))
    rw [if_neg (by exact_mod_cast hr), hgap, Option.bind_some, hsum, Option.bind_some,
      Arithmetic.convert_of_nonneg hI (by omega) (by omega)]
    push_cast [hlt.le]
    rfl

/-- In the arithmetic of the language this is the function of the mappings. -/
theorem leastMultipleAtLeast_machine (T : IndexType) {alignment value : ℤ} :
    leastMultipleAtLeast .machine T alignment value = machineLeastMultiple T alignment value := by
  unfold leastMultipleAtLeast machineLeastMultiple
  split
  · rfl
  · next h =>
    simp only [Arithmetic.rem, if_neg h]
    rfl

/-! ## The stride -/

theorem max_eq (T : IndexType) : T.max = 2 ^ digits T - 1 := by
  unfold IndexType.max digits
  split <;> rfl

theorem staticSizeLimit_eq (T : IndexType) : staticSizeLimit T = min T.max size.max := by
  unfold staticSizeLimit
  rw [max_eq, max_eq]
  split
  · next h =>
    have hpow := Nat.pow_le_pow_right (show 0 < 2 by decide) h.le
    omega
  · next h =>
    have hpow := Nat.pow_le_pow_right (show 0 < 2 by decide) (Nat.le_of_not_lt h)
    omega

theorem staticStrideRepresentable_eq (hp : padding ≤ size.max) :
    staticStrideRepresentable A T padding extent =
      some (decide (Submdspan.leastMultipleAtLeast padding extent ≤ staticSizeLimit T)) := by
  have hle := le_leastMultipleAtLeast padding extent
  have hlimit : staticSizeLimit T ≤ size.max := (staticSizeLimit_eq T).trans_le (Nat.min_le_right _ _)
  unfold staticStrideRepresentable
  dsimp only
  by_cases hextent : extent > staticSizeLimit T
  · rw [if_pos hextent, decide_eq_false (by omega)]
  rw [if_neg hextent]
  by_cases hzero : padding = 0
  · rw [if_pos hzero, leastMultipleAtLeast_of_dvd (.inl hzero), decide_eq_true (by omega)]
  have hlt := Nat.mod_lt extent (Nat.pos_of_ne_zero hzero)
  have hrem : A.rem size extent padding = some ((extent % padding : ℕ) : ℤ) :=
    Arithmetic.rem_of_pos (Int.natCast_nonneg extent) (by omega) (by omega)
  rw [if_neg hzero, hrem, Option.bind_eq_bind, Option.bind_some]
  by_cases hr : extent % padding = 0
  · rw [if_pos (by exact_mod_cast hr), leastMultipleAtLeast_of_dvd (.inr (Nat.dvd_of_mod_eq_zero hr)),
      decide_eq_true (by omega)]
  · have hgap : A.sub size padding ((extent % padding : ℕ) : ℤ) = some _ :=
      Arithmetic.sub_of_nonneg (by omega) (by omega)
    have hroom : A.sub size (staticSizeLimit T : ℕ) (extent : ℤ) = some _ :=
      Arithmetic.sub_of_nonneg (by omega) (by omega)
    rw [if_neg (by exact_mod_cast hr), hgap, Option.bind_some, hroom, Option.bind_some,
      leastMultiple_of_rem hzero hr]
    exact congrArg some (decide_eq_decide.mpr (by omega))

/-! ## The product -/

/-- The comparison with the quotient is the comparison of the product with the limit. -/
theorem le_quotient_iff (factor : ℕ) (limit : ℤ) (h : 0 < product) :
    (factor : ℤ) ≤ limit / product ↔ product * factor ≤ limit := by
  rw [Int.le_ediv_iff_mul_le h, Int.mul_comm]

/-- The running product is a positive number up to the limit. -/
theorem productLoop_eq (hL : 0 < Limit.width) (hlimit : limit ≤ Limit.max) :
    ∀ {factors : List ℕ} {product : ℤ}, 0 ∉ factors → 1 ≤ product → product ≤ limit →
      productLoop A Limit limit factors product = some (decide (product * (factors.prod : ℕ) ≤ limit))
  | [], product, _, _, hle => by
    rw [productLoop, List.prod_nil, Nat.cast_one, Int.mul_one, decide_eq_true hle]
  | factor :: factors, product, hne, hone, hle => by
    rw [List.mem_cons, not_or] at hne
    have hfactor : 1 ≤ (factor : ℤ) := by exact_mod_cast Nat.pos_of_ne_zero (Ne.symm hne.1)
    have hprod : product * ((factor :: factors).prod : ℕ) = product * factor * (factors.prod : ℕ) := by
      rw [List.prod_cons, Nat.cast_mul, Int.mul_assoc]
    have hquotient : A.div Limit.promoted limit product = some (limit / product) :=
      Arithmetic.div_of_pos (by omega) (le_promoted hlimit) (by omega)
    have hiff := le_quotient_iff factor limit (show 0 < product by omega)
    rw [productLoop, hquotient, Option.bind_eq_bind, Option.bind_some, hprod]
    by_cases hgreater : (factor : ℤ) > limit / product
    · -- the factors that are left are positive and do not bring the product back
      have hlt : limit < product * factor := by
        by_contra hnot
        exact absurd (hiff.mpr (by omega)) (by omega)
      have hrest : 1 ≤ ((factors.prod : ℕ) : ℤ) := by
        exact_mod_cast Strided.prod_pos hne.2
      have hmul : product * factor ≤ product * factor * (factors.prod : ℕ) :=
        le_mul_of_one_le_right (by omega) hrest
      rw [if_pos hgreater, decide_eq_false (by omega)]
    · have hfits := hiff.mp (by omega)
      have hself : (factor : ℤ) ≤ product * factor := le_mul_of_one_le_left (by omega) hone
      have hproduct : product ≤ product * factor := le_mul_of_one_le_right (by omega) hfactor
      rw [if_neg hgreater, Arithmetic.convert_of_nonneg hL (by omega) (by omega), Option.bind_some,
        Arithmetic.mul_of_nonneg (by omega) (le_promoted (by omega)), Option.bind_some,
        Arithmetic.convert_of_nonneg hL (by omega) (by omega), Option.bind_some]
      exact productLoop_eq hL hlimit hne.2 (by omega) hfits

/-- A limit that leaves no room for a factor rejects the first one. -/
theorem productLoop_of_limit_lt (hlimit : Limit.Holds limit) (hlt : limit < 1) (hne : 0 ∉ factors) :
    productLoop A Limit limit factors 1 = some (decide (factors = [])) := by
  cases factors with
  | nil => rfl
  | cons factor factors =>
    rw [List.mem_cons, not_or] at hne
    have hfactor : 1 ≤ (factor : ℤ) := by exact_mod_cast Nat.pos_of_ne_zero (Ne.symm hne.1)
    have hquotient : A.div Limit.promoted limit 1 = some limit := by
      rw [Arithmetic.div, if_neg Int.one_ne_zero, Int.tdiv_one]
      exact A.result_of_holds hlimit.promoted
    rw [productLoop, hquotient, Option.bind_eq_bind, Option.bind_some, if_pos (by omega),
      decide_eq_false (List.cons_ne_nil factor factors)]

theorem staticProductRepresentable_eq {staticExtents : List ℕ} {paddedDim paddedStride : ℕ}
    (hL : 0 < Limit.width) (hlimit : Limit.Holds limit) (hone : 1 ≤ limit) :
    staticProductRepresentable A Limit limit staticExtents paddedDim paddedStride =
      some (decide (((staticFactors staticExtents paddedDim paddedStride).prod : ℤ) ≤ limit)) := by
  unfold staticProductRepresentable
  dsimp only
  split
  · next h =>
    have hzero := Nat.eq_zero_of_zero_dvd (List.dvd_prod h)
    rw [hzero, decide_eq_true (by omega)]
  · next h =>
    rw [productLoop_eq hL hlimit.2 h le_rfl hone, Int.one_mul]

theorem staticProductRepresentable_of_limit_lt {staticExtents : List ℕ} {paddedDim paddedStride : ℕ}
    (hlimit : Limit.Holds limit) (hlt : limit < 1) :
    staticProductRepresentable A Limit limit staticExtents paddedDim paddedStride =
      some (decide (staticFactors staticExtents paddedDim paddedStride = [] ∨
        0 ∈ staticFactors staticExtents paddedDim paddedStride)) := by
  unfold staticProductRepresentable
  dsimp only
  split
  · next h => rw [decide_eq_true (.inr h)]
  · next h =>
    rw [productLoop_of_limit_lt hlimit hlt h]
    exact congrArg some (decide_eq_decide.mpr (or_iff_left h).symm)

/-! ## The packed layout -/

theorem rankDynamic_pair (n m : ℕ) : rankDynamic [some n, some m] = 0 := rfl

theorem rankDynamic_ne_zero {staticExtents : List (Option ℕ)} (h : none ∈ staticExtents) :
    rankDynamic staticExtents ≠ 0 :=
  (List.countP_pos_iff.mpr ⟨none, h, rfl⟩).ne'

/-- The check is the one of the exact layout. -/
theorem packedStaticProductRepresentable_eq {m : ℕ} (hT : T.width ≤ 64) (hn : n < uintmaxMax) :
    packedStaticProductRepresentable A (.extents T [some n, some m]) =
      some (Linalg.packedStaticProductRepresentable T n) := by
  have hmax := Linalg.max_le_uintmax hT
  have hsize : uintmax.max = uintmaxMax := rfl
  have hconvert : ∀ {x : ℤ}, 0 ≤ x → x ≤ (uintmax.max : ℕ) → A.convert uintmax x = some x :=
    fun h0 h => Arithmetic.convert_of_nonneg (by decide) h0 h
  have hextent : staticExtent [some n, some m] 0 = n := rfl
  have hsuccessor : A.add uintmax n 1 = some ((n : ℤ) + 1) :=
    Arithmetic.add_of_nonneg (by omega) (by omega)
  have hquotient : A.div uintmax T.max ((n : ℤ) + 1) = some ((T.max : ℤ) / (n + 1)) :=
    Arithmetic.div_of_pos (Int.natCast_nonneg _) hmax (by omega)
  unfold packedStaticProductRepresentable
  dsimp only
  rw [if_neg (fun h => h rfl), rankDynamic_pair, if_neg (fun h => h rfl), hextent,
    hconvert (Int.natCast_nonneg n) (by omega), Option.bind_eq_bind, Option.bind_some,
    hconvert (Int.natCast_nonneg _) hmax, Option.bind_some, if_neg (by omega), hsuccessor,
    Option.bind_some, hquotient, Option.bind_some]
  have hdiv : (n : ℤ) ≤ (T.max : ℤ) / (n + 1) ↔ n ≤ T.max / (n + 1) := by
    rw [← Nat.cast_succ, ← Int.natCast_ediv, Int.ofNat_le]
  rw [Linalg.packedStaticProductRepresentable, bne_iff_ne.mpr (Nat.ne_of_lt hn), Bool.true_and]
  exact congrArg some (decide_eq_decide.mpr hdiv)

/-! ## The mandates of the padded layouts are exact -/

section
variable {side : Side} {extents : List ℕ} {paddingValue : Option ℕ} {s : ℕ}

theorem staticFactors_eq_set (extents : List ℕ) (r s : ℕ) : staticFactors extents r s = extents.set r s := by
  refine List.ext_getElem (by simp [staticFactors]) ?_
  intro k _ _
  simp only [staticFactors, List.getElem_mapIdx, List.getElem_set, eq_comm]

theorem prod_staticFactors (hrank : 1 < extents.length) :
    (staticFactors extents (paddedDim side extents.length) s).prod =
      s * (otherExtents side extents).prod := by
  rw [staticFactors_eq_set, List.prod_set]
  cases side with
  | left =>
    rw [paddedDim, if_pos (by omega), List.take_zero, List.prod_nil, Nat.one_mul]
    rfl
  | right =>
    rw [paddedDim, if_pos (by omega), List.drop_eq_nil_of_le (by omega), List.prod_nil, Nat.mul_one,
      Nat.mul_comm]
    rfl

theorem prod_eq (side : Side) (hrank : 1 < extents.length) :
    extents.prod = paddedExtent side extents * (otherExtents side extents).prod := by
  rw [← prod_staticFactors hrank, staticFactors_eq_set]
  cases side with
  | left =>
    rw [paddedDim, paddedExtent, ← List.getElem_eq_getD (h := by omega), List.set_getElem_self]
  | right =>
    rw [paddedDim, paddedExtent, ← List.getElem_eq_getD (h := by omega), List.set_getElem_self]

theorem prod_le_paddedProduct (side : Side) (extents : List ℕ) (padding : ℕ) :
    extents.prod ≤ paddedProduct side extents padding := by
  by_cases hrank : 1 < extents.length
  · rw [paddedProduct_eq hrank, exactStride_eq hrank, prod_eq side hrank]
    exact Nat.mul_le_mul_right _ (le_leastMultipleAtLeast _ _)
  · exact (if_pos (by omega) : paddedProduct side extents padding = _).ge

/-! What the assertions read of extents that are all static. -/

theorem map_staticExtent : (List.range extents.length).map (staticExtent (extents.map some)) = extents := by
  refine List.ext_getElem (by simp) ?_
  intro r _ hr
  simp [staticExtent, hr]

theorem rankDynamic_map_some : rankDynamic (extents.map some) = 0 := by
  rw [rankDynamic, List.countP_eq_zero]
  rintro a ha
  obtain ⟨e, -, rfl⟩ := List.mem_map.mp ha
  exact Bool.false_ne_true

theorem paddedStaticExtent_map_some (hrank : 1 < extents.length) :
    paddedStaticExtent side (extents.map some) = some (paddedExtent side extents) := by
  cases side with
  | left =>
    unfold paddedStaticExtent paddedExtent
    simp [show 0 < extents.length by omega]
  | right =>
    unfold paddedStaticExtent paddedExtent
    simp [show extents.length - 1 < extents.length by omega]

theorem staticFactors_default (h : extents.length ≤ uintmaxMax) :
    staticFactors extents uintmaxMax s = extents := by
  rw [staticFactors_eq_set, List.set_eq_of_length_le h]

theorem staticSizeLimit_of_width_le (hw : T.width ≤ 64) : staticSizeLimit T = T.max := by
  rw [staticSizeLimit_eq]
  exact Nat.min_eq_left (by exact_mod_cast Linalg.max_le_uintmax hw)

theorem representable_iff_of_rank_le (hlen : extents.length ≤ 1) (held : ∀ e ∈ extents, e ≤ T.max) :
    Representable side T extents padding ↔ extents.prod ≤ T.max := by
  have hproduct : paddedProduct side extents padding = extents.prod := if_pos hlen
  constructor
  · intro h
    rw [← hproduct]
    exact h.product
  · intro h
    exact ⟨held, hproduct ▸ h, fun hrank => absurd hlen (by omega)⟩

theorem representable_iff_of_lt_rank (hrank : 1 < extents.length) (held : ∀ e ∈ extents, e ≤ T.max) :
    Representable side T extents padding ↔
      Submdspan.leastMultipleAtLeast padding (paddedExtent side extents) ≤ T.max ∧
        Submdspan.leastMultipleAtLeast padding (paddedExtent side extents) *
          (otherExtents side extents).prod ≤ T.max := by
  have hproduct : paddedProduct side extents padding = _ := paddedProduct_eq hrank
  rw [exactStride_eq hrank] at hproduct
  constructor
  · intro h
    exact ⟨h.stride hrank, hproduct ▸ h.product⟩
  · rintro ⟨hstride, h⟩
    exact ⟨held, hproduct ▸ h, fun _ => hstride⟩

/-- The first product check of the assertions. -/
theorem spaceRepresentable_eq (hT : 0 < T.width) (hone : 1 ≤ T.max) (hrank : extents.length ≤ uintmaxMax) :
    staticProductRepresentable A T T.max extents uintmaxMax 0 =
      some (decide (extents.prod ≤ T.max)) := by
  rw [staticProductRepresentable_eq hT (IndexType.holds_of_nonneg (by omega) le_rfl) (by omega),
    staticFactors_default hrank]
  exact congrArg some (decide_eq_decide.mpr Int.ofNat_le)

/-- The second one, for the padding stride `s`. -/
theorem paddedRepresentable_eq (hw : T.width ≤ 64) (hone : 1 ≤ T.max) (hlen : 1 < extents.length) :
    staticProductRepresentable A size (staticSizeLimit T) extents (paddedDim side extents.length) s =
      some (decide (s * (otherExtents side extents).prod ≤ T.max)) := by
  rw [staticSizeLimit_of_width_le hw, staticProductRepresentable_eq (by decide)
    (IndexType.holds_of_nonneg (by omega) (Linalg.max_le_uintmax hw)) (by omega), prod_staticFactors hlen]
  exact congrArg some (decide_eq_decide.mpr Int.ofNat_le)

/-- The padding stride is zero where the type does not represent it. -/
theorem staticPaddingStride_eq (hw : T.width ≤ 64) (hp : padding ≤ size.max) (hlen : 1 < extents.length) :
    staticPaddingStride A side T (some padding) (extents.map some) =
      some (((if Submdspan.leastMultipleAtLeast padding (paddedExtent side extents) ≤ T.max then
        Submdspan.leastMultipleAtLeast padding (paddedExtent side extents) else 0 : ℕ) : ℤ)) := by
  unfold staticPaddingStride
  rw [List.length_map, if_neg (by omega), paddedStaticExtent_map_some hlen]
  dsimp only
  rw [staticStrideRepresentable_eq hp, staticSizeLimit_of_width_le hw, Option.bind_eq_bind, Option.bind_some]
  split
  · next hfits =>
    rw [decide_eq_true_iff] at hfits
    rw [if_pos hfits, leastMultipleAtLeast_eq (by decide) hp
      (hfits.trans (by exact_mod_cast Linalg.max_le_uintmax hw))]
  · next hfits =>
    rw [decide_eq_true_iff] at hfits
    rw [if_neg hfits]
    rfl

/-- The assertions about extents that are all static. -/
theorem mandates_map_some (hT : 0 < T.width) (hone : 1 ≤ T.max) (hrank : extents.length ≤ uintmaxMax) :
    mandates A side T paddingValue (extents.map some) =
      ((strideMandate A side T paddingValue (extents.map some)).bind fun stride =>
        (staticPaddingStride A side T paddingValue (extents.map some)).bind fun paddingStride =>
          let others := decide (extents.prod ≤ T.max) &&
            (paddingValue.all fun padding => padding ≤ T.max) && stride
          if extents.length ≤ 1 ∨ paddingValue = none then some others
          else
            (staticProductRepresentable A size (staticSizeLimit T) extents
              (paddedDim side extents.length) paddingStride.toNat).bind fun product =>
              some (others && product)) := by
  unfold mandates
  simp only [map_staticExtent, rankDynamic_map_some, List.length_map, ne_eq, not_true_eq_false,
    if_false, or_false, spaceRepresentable_eq hT hone hrank, Option.bind_eq_bind, Option.bind_some,
    Bool.and_true]

theorem mandates_of_padding (hT : 0 < T.width) (hw : T.width ≤ 64) (hone : 1 ≤ T.max)
    (hrank : extents.length ≤ uintmaxMax) (hlen : 1 < extents.length) (hp : padding ≤ size.max) :
    ∃ s : ℕ, mandates A side T (some padding) (extents.map some) =
        some (decide (extents.prod ≤ T.max) && decide (padding ≤ T.max) &&
          decide (Submdspan.leastMultipleAtLeast padding (paddedExtent side extents) ≤ T.max) &&
          decide (s * (otherExtents side extents).prod ≤ T.max)) ∧
      (Submdspan.leastMultipleAtLeast padding (paddedExtent side extents) ≤ T.max →
        s = Submdspan.leastMultipleAtLeast padding (paddedExtent side extents)) := by
  refine ⟨if Submdspan.leastMultipleAtLeast padding (paddedExtent side extents) ≤ T.max then
    Submdspan.leastMultipleAtLeast padding (paddedExtent side extents) else 0, ?_, fun hfits => if_pos hfits⟩
  have hstride : strideMandate A side T (some padding) (extents.map some) =
      some (decide (Submdspan.leastMultipleAtLeast padding (paddedExtent side extents) ≤ T.max)) := by
    unfold strideMandate
    rw [List.length_map, if_neg (by omega), paddedStaticExtent_map_some hlen]
    dsimp only
    rw [staticStrideRepresentable_eq hp, staticSizeLimit_of_width_le hw]
  rw [mandates_map_some hT hone hrank, hstride, Option.bind_some, staticPaddingStride_eq hw hp hlen,
    Option.bind_some, if_neg (by simp; omega), Int.toNat_natCast, paddedRepresentable_eq hw hone hlen,
    Option.bind_some]
  rfl

/-- The assertions hold exactly where the index type has the padding and the padded product, so that
every operation of the mapping is exact. -/
theorem mandates_iff (hT : 0 < T.width) (hw : T.width ≤ 64) (hone : 1 ≤ T.max)
    (hrank : extents.length ≤ uintmaxMax) (held : ∀ e ∈ extents, e ≤ T.max)
    (hp : ∀ p ∈ paddingValue, p ≤ size.max) :
    ∃ b, mandates A side T paddingValue (extents.map some) = some b ∧
      (b = true ↔ (∀ p ∈ paddingValue, p ≤ T.max) ∧
        Representable side T extents (givenPadding paddingValue none)) := by
  by_cases hlen : extents.length ≤ 1
  · rw [mandates_map_some hT hone hrank, representable_iff_of_rank_le hlen held]
    unfold strideMandate staticPaddingStride
    refine ⟨_, by simp only [List.length_map, if_pos hlen, if_pos (Or.inl hlen), Option.bind_some]; rfl, ?_⟩
    cases paddingValue <;> simp [and_comm]
  rw [representable_iff_of_lt_rank (by omega) held]
  cases paddingValue with
  | none =>
    have hexact : Submdspan.leastMultipleAtLeast (givenPadding none none) (paddedExtent side extents) =
        paddedExtent side extents := leastMultipleAtLeast_of_dvd (.inl rfl)
    have hextent : paddedExtent side extents ≤ T.max := held _ (paddedExtent_mem (by omega))
    rw [mandates_map_some hT hone hrank, hexact, ← prod_eq side (by omega)]
    unfold strideMandate staticPaddingStride
    refine ⟨_, by simp only [List.length_map, if_neg hlen, if_pos, Option.bind_some, or_true]; rfl, ?_⟩
    simp [hextent]
  | some p =>
    have hprod := prod_le_paddedProduct side extents p
    rw [paddedProduct_eq (by omega), exactStride_eq (by omega)] at hprod
    obtain ⟨s, hmandates, hs⟩ := mandates_of_padding (A := A) hT hw hone hrank (by omega) (hp p rfl)
    refine ⟨_, hmandates, ?_⟩
    change _ ↔ _ ∧ Submdspan.leastMultipleAtLeast p _ ≤ _ ∧ Submdspan.leastMultipleAtLeast p _ * _ ≤ _
    simp only [Bool.and_eq_true, decide_eq_true_iff, Option.mem_some_iff, forall_eq']
    constructor
    · rintro ⟨⟨⟨-, hin⟩, hfits⟩, hproduct⟩
      exact ⟨hin, hfits, hs hfits ▸ hproduct⟩
    · rintro ⟨hin, hfits, hproduct⟩
      exact ⟨⟨⟨hprod.trans hproduct, hin⟩, hfits⟩, hs hfits ▸ hproduct⟩

end

/-! ## The checks are exact -/

/-- In every arithmetic the product check compares the product of the factors with a limit that is
positive, the stride check compares the padded extent with the limits of both types, and the check of
the packed layout decides whether the index type represents `n * (n + 1)`. A stride that passes is
computed exactly. -/
theorem static_checks_exact (A : Arithmetic) :
    (∀ (Limit : IndexType) (limit : ℤ) (staticExtents : List ℕ) (paddedDim paddedStride : ℕ),
      0 < Limit.width → Limit.Holds limit →
      let factors := staticFactors staticExtents paddedDim paddedStride
      ∃ b, staticProductRepresentable A Limit limit staticExtents paddedDim paddedStride = some b ∧
        (1 ≤ limit → (b = true ↔ (factors.prod : ℤ) ≤ limit)) ∧
        (limit < 1 → (b = true ↔ factors = [] ∨ 0 ∈ factors))) ∧
    (∀ (T : IndexType) (padding extent : ℕ), 0 < T.width → padding ≤ size.max →
      ∃ padded b, IsPaddedExtent padding extent padded ∧
        staticStrideRepresentable A T padding extent = some b ∧
        (b = true ↔ padded ≤ T.max ∧ padded ≤ size.max) ∧
        (b = true → leastMultipleAtLeast A size padding extent = some (padded : ℤ) ∧
          (padding ≤ T.max → leastMultipleAtLeast A T padding extent = some (padded : ℤ)))) ∧
    (∀ (T : IndexType) (n m : ℕ), T.width ≤ 64 → n < uintmaxMax →
      ∃ b, packedStaticProductRepresentable A (.extents T [some n, some m]) = some b ∧
        (b = true ↔ n * (n + 1) ≤ T.max)) ∧
    (∀ (T : IndexType) (staticExtents : List (Option ℕ)), staticExtents.length = 2 →
      none ∈ staticExtents →
      packedStaticProductRepresentable A (.extents T staticExtents) = some true) ∧
    (∀ (T : IndexType) (staticExtents : List (Option ℕ)), staticExtents.length ≠ 2 →
      packedStaticProductRepresentable A (.extents T staticExtents) = some false) ∧
    packedStaticProductRepresentable A .other = some false := by
  refine ⟨?_, ?_, ?_, ?_, ?_, rfl⟩
  · intro Limit limit staticExtents paddedDim paddedStride hL hlimit
    by_cases hone : 1 ≤ limit
    · exact ⟨_, staticProductRepresentable_eq hL hlimit hone, fun _ => decide_eq_true_iff,
        fun hlt => absurd hone (by omega)⟩
    · exact ⟨_, staticProductRepresentable_of_limit_lt hlimit (by omega), fun h => absurd h hone,
        fun _ => decide_eq_true_iff⟩
  · intro T padding extent hT hp
    have hiff : Submdspan.leastMultipleAtLeast padding extent ≤ staticSizeLimit T ↔
        Submdspan.leastMultipleAtLeast padding extent ≤ T.max ∧
          Submdspan.leastMultipleAtLeast padding extent ≤ size.max := by
      rw [staticSizeLimit_eq, Nat.le_min]
    refine ⟨_, _, isPaddedExtent_leastMultiple padding extent, staticStrideRepresentable_eq hp, ?_, ?_⟩
    · rw [decide_eq_true_iff, hiff]
    · intro h
      rw [decide_eq_true_iff, hiff] at h
      exact ⟨leastMultipleAtLeast_eq (by decide) hp h.2, fun hpT => leastMultipleAtLeast_eq hT hpT h.1⟩
  · intro T n m hT hn
    exact ⟨_, packedStaticProductRepresentable_eq hT hn,
      Linalg.packedStaticProductRepresentable_iff T n hn⟩
  · intro T staticExtents hlength hnone
    unfold packedStaticProductRepresentable
    dsimp only
    rw [if_neg (fun h => h hlength), if_pos (rankDynamic_ne_zero hnone)]
  · intro T staticExtents hlength
    exact if_pos hlength

theorem static_checks_exact_narrow :
    (∃ b, staticProductRepresentable .machine ⟨8, true⟩ 127 [2 ^ 40, 2 ^ 40, 5] 2 0 = some b ∧
      b = true) ∧
    (∃ b, staticProductRepresentable .machine ⟨8, true⟩ 127 [4, 31] 1 32 = some b ∧ b = false) ∧
    (∃ padded b, IsPaddedExtent 8 121 padded ∧
      staticStrideRepresentable .machine ⟨8, true⟩ 8 121 = some b ∧ (b = true ↔ padded ≤ 127)) ∧
    ∃ b, packedStaticProductRepresentable .machine (.extents ⟨8, true⟩ [some 10, some 10]) = some b ∧
      b = true := by
  obtain ⟨hproduct, hstride, hpacked, -⟩ := static_checks_exact .machine
  obtain ⟨b₁, h₁, hiff₁, -⟩ := hproduct ⟨8, true⟩ 127 [2 ^ 40, 2 ^ 40, 5] 2 0 (by decide) (by decide)
  obtain ⟨b₂, h₂, hiff₂, -⟩ := hproduct ⟨8, true⟩ 127 [4, 31] 1 32 (by decide) (by decide)
  obtain ⟨padded, b₃, hpadded, h₃, hiff₃, -⟩ := hstride ⟨8, true⟩ 8 121 (by decide) (by decide)
  obtain ⟨b₄, h₄, hiff₄⟩ := hpacked ⟨8, true⟩ 10 10 (by decide) (by decide)
  refine ⟨⟨b₁, h₁, (hiff₁ (by decide)).mpr (by decide)⟩, ⟨b₂, h₂, ?_⟩, ⟨padded, b₃, hpadded, h₃, ?_⟩,
    b₄, h₄, hiff₄.mpr (by decide)⟩
  · exact Bool.eq_false_iff.mpr (mt (hiff₂ (by decide)).mp (by decide))
  · exact hiff₃.trans (and_iff_left_of_imp fun h => h.trans (by decide))

/-- An empty product passes a limit of zero. The packed check leaves a shape with a dynamic extent to
the constructor. -/
theorem static_checks_not_exact :
    staticProductRepresentable .machine .int 0 [] uintmaxMax 0 = some true ∧
    ¬((staticFactors [] uintmaxMax 0).prod : ℤ) ≤ 0 ∧
    packedStaticProductRepresentable .machine (.extents ⟨8, true⟩ [some 100, none]) = some true ∧
    ¬100 * (100 + 1) ≤ (⟨8, true⟩ : IndexType).max := by
  decide

end CCForge.Submdspan.StaticChecks
