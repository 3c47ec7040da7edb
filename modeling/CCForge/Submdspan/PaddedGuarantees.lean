import Mathlib.Algebra.BigOperators.Group.List.Lemmas
import Mathlib.Order.Bounds.Basic
import CCForge.Submdspan.Padded

/-!
# The padded layouts keep their promises

Where the padded product of the extents is representable no operation overflows. The exact
mapping is injective and its offsets fill the span up to the last one.
-/

namespace CCForge.Submdspan

open CCForge.Linalg (IndexType)
open CCForge.Strided

variable {side : Side} {T : IndexType} {extents idxs i j es : List ℕ} {p e r s k : ℕ} {x y : ℤ}

/-! ## Arithmetic that does not overflow -/

theorem convert_natCast (h : e ≤ T.max) : T.convert (e : ℤ) = e :=
  IndexType.convert_of_nonneg (Int.natCast_nonneg e) (by exact_mod_cast h)

theorem promoted_result (h : k ≤ T.max) : T.promoted.result (k : ℤ) = some (k : ℤ) :=
  IndexType.result_of_nonneg (Int.natCast_nonneg k) (by exact_mod_cast h.trans T.max_le_promoted)

theorem promoted_mul (h : e * s ≤ T.max) : T.promoted.mul e s = some ((e * s : ℕ) : ℤ) := by
  rw [IndexType.mul, ← Nat.cast_mul]
  exact promoted_result h

theorem promoted_add (h : e + s ≤ T.max) : T.promoted.add e s = some ((e + s : ℕ) : ℤ) := by
  rw [IndexType.add, ← Nat.cast_add]
  exact promoted_result h

theorem promoted_sub (hle : s ≤ e) (h : e ≤ T.max) : T.promoted.sub e s = some ((e - s : ℕ) : ℤ) := by
  rw [IndexType.sub, ← Nat.cast_sub hle]
  exact promoted_result ((Nat.sub_le e s).trans h)

theorem promoted_rem (h : e ≤ T.max) : T.promoted.rem e s = some ((e % s : ℕ) : ℤ) := by
  have hrem : (e : ℤ).tmod s = ((e % s : ℕ) : ℤ) := by
    rw [Int.tmod_eq_emod_of_nonneg (Int.natCast_nonneg e)]
    exact (Int.natCast_mod e s).symm
  rw [IndexType.rem, hrem]
  exact promoted_result ((Nat.mod_le e s).trans h)

/-! ## The padding stride -/

theorem leastMultipleAtLeast_dvd (h : p ≠ 0) : p ∣ leastMultipleAtLeast p e := by
  unfold leastMultipleAtLeast
  rw [if_neg h]
  split
  · exact Nat.dvd_zero p
  · dsimp only
    split
    · next hr => exact Nat.dvd_of_mod_eq_zero hr
    · have hlt := Nat.mod_lt e (Nat.pos_of_ne_zero h)
      have hdiv := Nat.div_add_mod e p
      refine ⟨e / p + 1, ?_⟩
      rw [Nat.mul_add]
      omega

/-- The least multiple of the padding that is not below the extent. -/
theorem leastMultipleAtLeast_isLeast (h : p ≠ 0) :
    IsLeast {k | p ∣ k ∧ e ≤ k} (leastMultipleAtLeast p e) := by
  refine ⟨⟨leastMultipleAtLeast_dvd h, le_leastMultipleAtLeast p e⟩, ?_⟩
  rintro k ⟨⟨c, rfl⟩, hle⟩
  unfold leastMultipleAtLeast
  rw [if_neg h]
  split
  · exact Nat.zero_le _
  · dsimp only
    split
    · exact hle
    · next hr =>
      have hlt := Nat.mod_lt e (Nat.pos_of_ne_zero h)
      have hdiv := Nat.div_add_mod e p
      -- a multiple that is not above `e / p` would be below the extent
      have hc : e / p + 1 ≤ c := by
        by_contra hgt
        have hmul : p * c ≤ p * (e / p) := Nat.mul_le_mul_left p (by omega)
        omega
      have hmul : p * (e / p + 1) ≤ p * c := Nat.mul_le_mul_left p hc
      rw [Nat.mul_add] at hmul
      omega

theorem leastMultipleAtLeast_of_dvd (h : p = 0 ∨ p ∣ e) : leastMultipleAtLeast p e = e := by
  unfold leastMultipleAtLeast
  split
  · rfl
  · next hp =>
    split
    · next he => exact he.symm
    · rw [if_pos (Nat.mod_eq_zero_of_dvd (h.resolve_left hp))]

theorem machineLeastMultiple_eq (he : e ≤ T.max) (h : leastMultipleAtLeast p e ≤ T.max) :
    machineLeastMultiple T (T.convert p) (T.convert e) = some (leastMultipleAtLeast p e : ℤ) := by
  rw [convert_natCast he]
  by_cases hzero : e = 0
  · subst hzero
    have hexact : leastMultipleAtLeast p 0 = 0 := leastMultipleAtLeast_of_dvd (.inr (Nat.dvd_zero p))
    rw [hexact]
    unfold machineLeastMultiple
    split <;> rfl
  by_cases hp : p = 0
  · subst hp
    have hexact : leastMultipleAtLeast 0 e = e := leastMultipleAtLeast_of_dvd (.inl rfl)
    have hconvert : T.convert ((0 : ℕ) : ℤ) = 0 := convert_natCast (Nat.zero_le _)
    rw [hexact, hconvert]
    exact if_pos rfl
  -- a padding that is not zero divides its multiple, so the index type has it too
  have hpos : 0 < leastMultipleAtLeast p e :=
    (Nat.pos_of_ne_zero hzero).trans_le (le_leastMultipleAtLeast p e)
  have hple : p ≤ T.max := (Nat.le_of_dvd hpos (leastMultipleAtLeast_dvd hp)).trans h
  have hlt := Nat.mod_lt e (Nat.pos_of_ne_zero hp)
  rw [convert_natCast hple]
  unfold machineLeastMultiple
  rw [if_neg (by exact_mod_cast hp), if_neg (by exact_mod_cast hzero), promoted_rem he]
  simp only [Option.bind_eq_bind, Option.bind_some, convert_natCast (hlt.le.trans hple)]
  unfold leastMultipleAtLeast at h ⊢
  rw [if_neg hp, if_neg hzero] at h ⊢
  by_cases hr : e % p = 0
  · rw [if_pos hr, if_pos (by exact_mod_cast hr)]
    rfl
  · dsimp only at h ⊢
    rw [if_neg hr] at h ⊢
    rw [if_neg (by exact_mod_cast hr), promoted_sub hlt.le hple]
    simp only [Option.bind_some]
    rw [promoted_add h]
    exact congrArg some (convert_natCast h)

/-! ## The exact mapping -/

/-- The padding stride of a mapping with more than one dimension, and one otherwise. -/
def exactStride (side : Side) (extents : List ℕ) (p : ℕ) : ℕ :=
  if extents.length > 1 then leastMultipleAtLeast p (paddedExtent side extents) else 1

theorem exactPadded_mirror (extents : List ℕ) (p : ℕ) :
    exactPadded .right extents p = (exactPadded .left extents.reverse p).mirror := by
  have heq : Mapping.makeRightPadded extents.reverse.reverse p = _ := makeRightPadded_eq p
  rwa [List.reverse_reverse] at heq

theorem paddedProduct_reverse (extents : List ℕ) (p : ℕ) :
    paddedProduct .right extents p = paddedProduct .left extents.reverse p := by
  unfold paddedProduct paddedExtent
  rw [List.length_reverse, List.prod_reverse]
  split
  · rfl
  · next hlen =>
    have hlast : extents.reverse.getD 0 0 = extents.getD (extents.length - 1) 0 := by
      rw [List.getD_eq_getElem?_getD, List.getElem?_reverse (by omega), List.getD_eq_getElem?_getD,
        Nat.sub_zero]
    have hrest : (extents.reverse.drop 1).prod = (extents.take (extents.length - 1)).prod := by
      rw [List.drop_reverse, List.prod_reverse]
    dsimp only
    rw [hlast, hrest]

theorem extents_exactPadded (side : Side) (extents : List ℕ) (p : ℕ) :
    (exactPadded side extents p).extents = extents := by
  cases side <;> rfl

/-- The padded extent fits in its stride. -/
theorem exactPadded_left_le (h : extents = e :: es) (hes : es ≠ []) : e ≤ exactStride .left extents p := by
  subst h
  have hlen : 0 < es.length := List.length_pos_iff.mpr hes
  unfold exactStride
  rw [if_pos (by simpa using hlen)]
  exact le_leastMultipleAtLeast p e

theorem exactPadded_valid (side : Side) (extents : List ℕ) (p : ℕ) :
    (exactPadded side extents p).Valid := by
  have hleft : ∀ extents : List ℕ, (exactPadded .left extents p).Valid := by
    intro extents e es hes
    by_cases hnil : es = []
    · refine .inr (.inr ?_)
      simp [hnil]
    · exact .inl (exactPadded_left_le hes hnil)
  cases side with
  | left => exact hleft extents
  | right =>
    rw [exactPadded_mirror]
    exact (hleft extents.reverse).mirror

theorem strides_exactPadded_left (e : ℕ) (es : List ℕ) (p : ℕ) :
    (exactPadded .left (e :: es) p).strides = 1 :: columnStrides (exactStride .left (e :: es) p) es :=
  Mapping.strides_layoutLeftPadded e es _

/-- The mapping reaches different offsets for different indices. -/
theorem exactPadded_injective (hi : InBox i extents) (hj : InBox j extents)
    (h : (exactPadded side extents p).apply i = (exactPadded side extents p).apply j) : i = j := by
  have hleft : ∀ {extents i j : List ℕ}, InBox i extents → InBox j extents →
      (exactPadded .left extents p).apply i = (exactPadded .left extents p).apply j → i = j := by
    intro extents i j hi hj h
    cases extents with
    | nil =>
      cases hi
      cases hj
      rfl
    | cons e es =>
      rw [Mapping.apply_eq_dot hi.length_eq, Mapping.apply_eq_dot hj.length_eq,
        strides_exactPadded_left] at h
      by_cases hes : es = []
      · subst hes
        exact dot_padded_injective le_rfl hi hj h
      · exact dot_padded_injective (exactPadded_left_le rfl hes) hi hj h
  cases side with
  | left => exact hleft hi hj h
  | right =>
    have hv := exactPadded_valid .left extents.reverse p
    -- the right layout is the left one of the reversed extents
    have hmirror : ∀ {k : List ℕ}, InBox k extents → (exactPadded .right extents p).apply k =
        (exactPadded .left extents.reverse p).apply k.reverse := by
      intro k hk
      have hm := Mapping.apply_mirror hv (j := k.reverse) (by
        rw [extents_exactPadded, List.length_reverse, List.length_reverse, hk.length_eq])
      rwa [List.reverse_reverse, ← exactPadded_mirror] at hm
    rw [hmirror hi, hmirror hj] at h
    exact List.reverse_injective (hleft hi.reverse hj.reverse h)

/-- The greatest index reaches the last offset of the span. -/
theorem exactPadded_last (h : 0 ∉ extents) :
    (exactPadded side extents p).apply (last extents) + 1 =
      (exactPadded side extents p).requiredSpanSize := by
  have he := extents_exactPadded side extents p
  rw [Mapping.requiredSpanSize_eq (by rwa [he]), Mapping.apply_eq_dot (by rw [he, length_last]), he]

/-- The span is not larger than the padded product. -/
theorem span_le_paddedProduct (h : 0 ∉ extents) :
    (exactPadded side extents p).requiredSpanSize ≤ paddedProduct side extents p := by
  have hleft : ∀ {extents : List ℕ}, 0 ∉ extents →
      (exactPadded .left extents p).requiredSpanSize ≤ paddedProduct .left extents p := by
    intro extents h
    rw [Mapping.requiredSpanSize_eq (by rwa [extents_exactPadded]), extents_exactPadded]
    cases extents with
    | nil => simp [paddedProduct, last]
    | cons e es =>
      rw [List.mem_cons, not_or] at h
      rw [strides_exactPadded_left, last, List.map_cons, dot_cons]
      by_cases hes : es = []
      · subst hes
        simp [paddedProduct]
        omega
      · have hlast := dot_last_columnStrides (exactStride .left (e :: es) p) h.2
        have hle := exactPadded_left_le (p := p) (rfl : e :: es = e :: es) hes
        have hlen : 0 < es.length := List.length_pos_iff.mpr hes
        have hstride : exactStride .left (e :: es) p = leastMultipleAtLeast p e :=
          if_pos (by simpa using hlen)
        rw [last] at hlast
        unfold paddedProduct
        rw [if_neg (by rw [List.length_cons]; omega)]
        change _ ≤ leastMultipleAtLeast p e * es.prod
        rw [← hstride]
        omega
  cases side with
  | left => exact hleft h
  | right =>
    rw [exactPadded_mirror, Mapping.requiredSpanSize_mirror (exactPadded_valid _ _ _),
      paddedProduct_reverse]
    exact hleft (by simpa using h)

/-! ## The machine computes the exact mapping -/

theorem exactStride_eq (hrank : 1 < extents.length) :
    exactStride side extents p = leastMultipleAtLeast p (paddedExtent side extents) :=
  if_pos hrank

/-- The mapping that the constructors make. -/
def PaddedMapping.exact (side : Side) (T : IndexType) (extents : List ℕ) (p : ℕ) : PaddedMapping :=
  ⟨side, T, extents, exactStride side extents p⟩

theorem paddedExtent_mem (hrank : 1 < extents.length) : paddedExtent side extents ∈ extents := by
  cases side with
  | left =>
    change extents.getD 0 0 ∈ extents
    rw [← List.getElem_eq_getD (h := by omega) 0]
    exact List.getElem_mem _
  | right =>
    change extents.getD (extents.length - 1) 0 ∈ extents
    rw [← List.getElem_eq_getD (h := by omega) 0]
    exact List.getElem_mem _

theorem makeStride_eq (h : Representable side T extents p) (hrank : 1 < extents.length) :
    PaddedMapping.makeStride side T extents p =
      some (leastMultipleAtLeast p (paddedExtent side extents) : ℤ) :=
  machineLeastMultiple_eq (h.held _ (paddedExtent_mem hrank)) (h.stride hrank)

theorem make_eq {paddingValue padding : Option ℕ}
    (h : Representable side T extents (givenPadding paddingValue padding)) :
    PaddedMapping.make side T paddingValue extents padding =
      some (.exact side T extents (givenPadding paddingValue padding)) := by
  unfold PaddedMapping.make PaddedMapping.exact exactStride
  by_cases hrank : 1 < extents.length
  · have hstride := makeStride_eq h hrank
    rw [if_pos hrank, if_pos hrank]
    cases padding with
    | some q =>
      have hgiven : givenPadding paddingValue (some q) = q := rfl
      rw [hgiven] at hstride ⊢
      simp only [Option.bind_eq_bind, hstride, Option.bind_some]
      rfl
    | none =>
      cases paddingValue with
      | some q =>
        have hgiven : givenPadding (some q) none = q := rfl
        rw [hgiven] at hstride ⊢
        simp only [Option.bind_eq_bind, hstride, Option.bind_some]
        rfl
      | none =>
        have hexact : leastMultipleAtLeast (givenPadding none none) (paddedExtent side extents) =
            paddedExtent side extents := leastMultipleAtLeast_of_dvd (.inl rfl)
        simp only [Option.bind_eq_bind, Option.bind_some, hexact,
          convert_natCast (h.held _ (paddedExtent_mem hrank))]
        rfl
  · rw [if_neg hrank, if_neg hrank]
    rfl

theorem strideLoop_eq (hne : 0 ∉ es) (hheld : ∀ e ∈ es, e ≤ T.max) (h : s * es.prod ≤ T.max) :
    PaddedMapping.strideLoop T es s = some ((s * es.prod : ℕ) : ℤ) := by
  induction es generalizing s with
  | nil => simp [PaddedMapping.strideLoop]
  | cons e es ih =>
    rw [List.mem_cons, not_or] at hne
    rw [List.prod_cons, ← Nat.mul_assoc] at h
    have hstep : s * e ≤ T.max := (Nat.le_mul_of_pos_right _ (prod_pos hne.2)).trans h
    rw [PaddedMapping.strideLoop, convert_natCast (hheld e List.mem_cons_self), promoted_mul hstep]
    rw [Option.bind_eq_bind, Option.bind_some, convert_natCast hstep,
      ih hne.2 (fun x hx => hheld x (List.mem_cons_of_mem e hx)) h, List.prod_cons, Nat.mul_assoc]

/-- A run of extents has not a larger product than a run around it. -/
theorem prod_le_of_sublist {ds : List ℕ} (hne : 0 ∉ es) (h : ds.Sublist es) : ds.prod ≤ es.prod :=
  Nat.le_of_dvd (prod_pos hne) h.prod_dvd_prod

/-- The extents that are not padded. -/
def otherExtents (side : Side) (extents : List ℕ) : List ℕ :=
  match side with
  | .left => extents.drop 1
  | .right => extents.take (extents.length - 1)

theorem otherExtents_sublist : (otherExtents side extents).Sublist extents := by
  cases side with
  | left => exact List.drop_sublist 1 extents
  | right => exact List.take_sublist _ extents

theorem paddedProduct_eq (hrank : 1 < extents.length) :
    paddedProduct side extents p = exactStride side extents p * (otherExtents side extents).prod := by
  rw [exactStride_eq hrank]
  cases side <;> exact if_neg (by omega)

/-- A run of the other extents is a stride that the index type has. -/
theorem stride_run (hne : 0 ∉ extents) (h : Representable side T extents p)
    (hrank : 1 < extents.length) (hsub : es.Sublist (otherExtents side extents)) :
    exactStride side extents p * es.prod ≤ T.max := by
  have hother : 0 ∉ otherExtents side extents := fun hz => hne (otherExtents_sublist.subset hz)
  have hle := Nat.mul_le_mul_left (exactStride side extents p) (prod_le_of_sublist hother hsub)
  rw [← paddedProduct_eq hrank] at hle
  exact hle.trans h.product

theorem stride_loop (hne : 0 ∉ extents) (h : Representable side T extents p)
    (hrank : 1 < extents.length) (hsub : es.Sublist (otherExtents side extents)) :
    PaddedMapping.strideLoop T es (exactStride side extents p) =
      some ((exactStride side extents p * es.prod : ℕ) : ℤ) := by
  have hsub' := hsub.trans otherExtents_sublist
  exact strideLoop_eq (fun hz => hne (hsub'.subset hz)) (fun e he => h.held e (hsub'.subset he))
    (stride_run hne h hrank hsub)

theorem stride_eq (hne : 0 ∉ extents) (h : Representable side T extents p) (hr : r < extents.length) :
    (PaddedMapping.exact side T extents p).stride r =
      some ((exactPadded side extents p).stride r : ℤ) := by
  cases side with
  | left =>
    change (if extents.length = 0 then some 1 else if r = 0 then some 1
      else if r = 1 then some (exactStride .left extents p : ℤ)
      else PaddedMapping.strideLoop T ((extents.take r).drop 1) (exactStride .left extents p)) = _
    change _ = some (Mapping.leftPaddedStride extents (exactStride .left extents p) r : ℤ)
    unfold Mapping.leftPaddedStride
    split_ifs with h0 h1 h2
    · rfl
    · rfl
    · rfl
    · refine stride_loop hne h (by omega) ?_
      rw [List.drop_take]
      exact List.take_sublist _ _
  | right =>
    change (if extents.length = 0 then some 1 else if r + 1 = extents.length then some 1
      else if r + 2 = extents.length then some (exactStride .right extents p : ℤ)
      else PaddedMapping.strideLoop T ((extents.take (extents.length - 1)).drop (r + 1))
        (exactStride .right extents p)) = _
    change _ = some (Mapping.rightPaddedStride extents (exactStride .right extents p) r : ℤ)
    unfold Mapping.rightPaddedStride
    split_ifs with h0 h1 h2
    · rfl
    · rfl
    · rfl
    · exact stride_loop hne h (by omega) (List.drop_sublist _ _)

/-- The index type has every stride. -/
theorem stride_le (hne : 0 ∉ extents) (h : Representable side T extents p) (hr : r < extents.length) :
    (exactPadded side extents p).stride r ≤ T.max := by
  have hone : 1 ≤ T.max :=
    (Nat.one_le_iff_ne_zero.mpr fun hz => hne (hz ▸ List.getElem_mem hr)).trans
      (h.held _ (List.getElem_mem hr))
  have hself (hrank : 1 < extents.length) : exactStride side extents p ≤ T.max := by
    have hnil := stride_run hne h hrank (List.nil_sublist _)
    rwa [List.prod_nil, Nat.mul_one] at hnil
  cases side with
  | left =>
    change Mapping.leftPaddedStride extents (exactStride .left extents p) r ≤ T.max
    unfold Mapping.leftPaddedStride
    split_ifs with h0 h1 h2
    · exact hone
    · exact hone
    · exact hself (by omega)
    · refine stride_run hne h (by omega) ?_
      rw [List.drop_take]
      exact List.take_sublist _ _
  | right =>
    change Mapping.rightPaddedStride extents (exactStride .right extents p) r ≤ T.max
    unfold Mapping.rightPaddedStride
    split_ifs with h0 h1 h2
    · exact hone
    · exact hone
    · exact hself (by omega)
    · exact stride_run hne h (by omega) (List.drop_sublist _ _)

/-! ## The sums -/

theorem accumulate_eq (hne : 0 ∉ extents) (h : Representable side T extents p)
    (hr : r < extents.length)
    (hsum : s + k * (exactPadded side extents p).stride r ≤ T.max) :
    (PaddedMapping.exact side T extents p).accumulate r k s =
      some ((s + k * (exactPadded side extents p).stride r : ℕ) : ℤ) := by
  have hmul : k * (exactPadded side extents p).stride r ≤ T.max := (Nat.le_add_left _ _).trans hsum
  unfold PaddedMapping.accumulate
  rw [stride_eq hne h hr]
  simp only [Option.bind_eq_bind, Option.bind_some]
  change ((T.promoted.mul _ _).bind fun product => (T.promoted.add _ product).bind fun sum =>
    some (T.convert sum)) = _
  rw [promoted_mul hmul, Option.bind_some, promoted_add hsum, Option.bind_some, convert_natCast hsum]

theorem callFrom_eq (hne : 0 ∉ extents) (h : Representable side T extents p)
    (hlen : r + idxs.length ≤ extents.length) (hidx : ∀ i ∈ idxs, i ≤ T.max)
    (hsum : s + (exactPadded side extents p).sumFrom r idxs ≤ T.max) :
    (PaddedMapping.exact side T extents p).callFrom r idxs s =
      some ((s + (exactPadded side extents p).sumFrom r idxs : ℕ) : ℤ) := by
  induction idxs generalizing r s with
  | nil => rfl
  | cons i is ih =>
    rw [Mapping.sumFrom, ← Nat.add_assoc] at hsum ⊢
    rw [List.length_cons] at hlen
    have hstep := (Nat.le_add_right _ _).trans hsum
    have hi : (PaddedMapping.exact side T extents p).indexType.convert (i : ℤ) = i :=
      convert_natCast (T := T) (hidx i List.mem_cons_self)
    rw [PaddedMapping.callFrom, hi, accumulate_eq hne h (by omega) hstep, Option.bind_eq_bind,
      Option.bind_some]
    exact ih (by omega) (fun j hj => hidx j (List.mem_cons_of_mem i hj)) hsum

theorem spanFrom_eq_callFrom (hne : 0 ∉ es) (hheld : ∀ e ∈ es, e ≤ T.max) :
    (PaddedMapping.exact side T extents p).spanFrom r es x =
      (PaddedMapping.exact side T extents p).callFrom r (last es) x := by
  induction es generalizing r x with
  | nil => rfl
  | cons e es ih =>
    rw [List.mem_cons, not_or] at hne
    have he := hheld e List.mem_cons_self
    have hsub : (PaddedMapping.exact side T extents p).indexType.promoted.sub (e : ℤ) 1 =
        some ((e - 1 : ℕ) : ℤ) := promoted_sub (T := T) (Nat.one_le_iff_ne_zero.mpr (Ne.symm hne.1)) he
    -- the loop of the span is that of the call, at the index one below each extent
    have htail (r : ℕ) : (PaddedMapping.exact side T extents p).spanFrom (r + 1) es =
        (PaddedMapping.exact side T extents p).callFrom (r + 1) (last es) :=
      funext fun _ => ih hne.2 fun d hd => hheld d (List.mem_cons_of_mem e hd)
    rw [last, List.map_cons, PaddedMapping.spanFrom, PaddedMapping.callFrom, hsub,
      Option.bind_eq_bind, Option.bind_some, htail]
    rfl

theorem call_eq (h : Representable side T extents p) (hi : InBox idxs extents) :
    (PaddedMapping.exact side T extents p).call idxs =
      some ((exactPadded side extents p).apply idxs : ℤ) := by
  have hne := hi.zero_notMem
  have hlt : (exactPadded side extents p).apply idxs < (exactPadded side extents p).requiredSpanSize :=
    Mapping.apply_lt (by rwa [extents_exactPadded])
  have hmax := (hlt.le.trans (span_le_paddedProduct hne)).trans h.product
  have hidx : ∀ i ∈ idxs, i ≤ T.max := by
    intro i hmem
    obtain ⟨e, he, hle⟩ : ∃ e ∈ extents, i < e := by
      clear hne hlt hmax h
      induction hi with
      | nil => cases hmem
      | @cons x y _ _ hx _ ih =>
        obtain rfl | hmem := List.mem_cons.mp hmem
        · exact ⟨y, List.mem_cons_self, hx⟩
        · obtain ⟨e, he, hlt⟩ := ih hmem
          exact ⟨e, List.mem_cons_of_mem y he, hlt⟩
    exact hle.le.trans (h.held e he)
  have hfold := callFrom_eq (s := 0) (r := 0) hne h (by rw [hi.length_eq, Nat.zero_add]) hidx
    (by rwa [Nat.zero_add])
  rw [Nat.zero_add] at hfold
  exact hfold

theorem requiredSpanSize_eq (h : Representable side T extents p) :
    (PaddedMapping.exact side T extents p).requiredSpanSize =
      some ((exactPadded side extents p).requiredSpanSize : ℤ) := by
  by_cases hne : 0 ∈ extents
  · rw [Mapping.requiredSpanSize_eq_zero (by rwa [extents_exactPadded])]
    exact if_pos hne
  · have hlast := call_eq h (inBox_last hne)
    have hmax : (exactPadded side extents p).requiredSpanSize ≤ _ :=
      (span_le_paddedProduct hne).trans h.product
    rw [← exactPadded_last hne] at hmax ⊢
    have hspan : (PaddedMapping.exact side T extents p).spanFrom 0 extents 0 =
        some ((exactPadded side extents p).apply (last extents) : ℤ) :=
      (spanFrom_eq_callFrom hne h.held).trans hlast
    unfold PaddedMapping.requiredSpanSize
    refine (if_neg hne).trans ?_
    change ((PaddedMapping.exact side T extents p).spanFrom 0 extents 0).bind (fun result =>
      (T.promoted.add result 1).bind fun sum => some (T.convert sum)) = _
    have hadd : T.promoted.add ((exactPadded side extents p).apply (last extents) : ℤ) 1 = _ :=
      promoted_add hmax
    rw [hspan, Option.bind_some, hadd, Option.bind_some, convert_natCast hmax]

/-! ## Conversions -/

theorem mapM_eq_map {α β : Type*} {f : α → Option β} {g : α → β} {l : List α}
    (h : ∀ a ∈ l, f a = some (g a)) : l.mapM f = some (l.map g) := by
  induction l with
  | nil => rfl
  | cons a l ih =>
    rw [List.mapM_cons, h a List.mem_cons_self, ih fun b hb => h b (List.mem_cons_of_mem a hb)]
    rfl

theorem toStrides_eq {U : IndexType} (hne : 0 ∉ extents) (hT : Representable side T extents p)
    (hU : Representable side U extents p) :
    (PaddedMapping.exact side T extents p).toStrides U =
      some ((exactPadded side extents p).strides.map Nat.cast) := by
  have hrank : (exactPadded side extents p).rank = extents.length :=
    congrArg List.length (extents_exactPadded side extents p)
  rw [Mapping.strides, hrank, List.map_map]
  refine mapM_eq_map fun r hr => ?_
  have hr' : r < extents.length := List.mem_range.mp hr
  rw [stride_eq hne hT hr']
  exact congrArg some (convert_natCast (stride_le hne hU hr'))

/-- The constructor from strides reads back the padding stride. -/
theorem ofStrides_eq (hne : 0 ∉ extents) (h : Representable side T extents p) :
    PaddedMapping.ofStrides side T extents ((exactPadded side extents p).strides.map Nat.cast) =
      .exact side T extents p := by
  have hget : ∀ {r}, r < extents.length →
      T.convert (((exactPadded side extents p).strides.map Nat.cast : List ℤ).getD r 0) =
        (exactPadded side extents p).stride r := by
    intro r hr
    have hlen : r < (exactPadded side extents p).strides.length := by
      rwa [Mapping.length_strides, extents_exactPadded]
    rw [← List.getElem_eq_getD (h := by simpa using hlen) 0, List.getElem_map]
    simp only [Mapping.strides, List.getElem_map, List.getElem_range]
    exact convert_natCast (stride_le hne h hr)
  unfold PaddedMapping.ofStrides PaddedMapping.exact
  dsimp only
  by_cases hrank : 1 < extents.length
  · cases side with
    | left =>
      have hone : (exactPadded .left extents p).stride 1 = exactStride .left extents p := by
        change Mapping.leftPaddedStride extents (exactStride .left extents p) 1 = _
        rw [Mapping.leftPaddedStride, if_neg (by omega), if_neg (by omega), if_pos rfl]
      rw [if_pos hrank, hget hrank, hone]
    | right =>
      have hsecond : (exactPadded .right extents p).stride (extents.length - 2) =
          exactStride .right extents p := by
        change Mapping.rightPaddedStride extents (exactStride .right extents p) _ = _
        rw [Mapping.rightPaddedStride, if_neg (by omega), if_neg (by omega), if_pos (by omega)]
      have hlt : extents.length - 2 < extents.length := by omega
      dsimp only
      rw [if_pos hrank, hget hlt, hsecond]
  · rw [if_neg hrank, exactStride, if_neg hrank, Nat.cast_one]

/-- The layout without padding. -/
def plainLayout (side : Side) (extents : List ℕ) : Mapping :=
  match side with
  | .left => .layoutLeft extents
  | .right => .layoutRight extents

/-- Nothing is padded where the padding divides the extent. -/
theorem strides_plain (h : p = 0 ∨ p ∣ paddedExtent side extents) :
    (exactPadded side extents p).strides = (plainLayout side extents).strides := by
  have hleft : ∀ {extents : List ℕ}, (p = 0 ∨ p ∣ paddedExtent .left extents) →
      (exactPadded .left extents p).strides = (Mapping.layoutLeft extents).strides := by
    intro extents h
    cases extents with
    | nil => rfl
    | cons e es =>
      rw [strides_exactPadded_left, Mapping.strides_layoutLeft, columnStrides_cons, Nat.one_mul]
      by_cases hes : es = []
      · rw [hes]
        rfl
      · have hlen : 0 < es.length := List.length_pos_iff.mpr hes
        have hstride : exactStride .left (e :: es) p = e :=
          (exactStride_eq (by simpa using hlen)).trans (leastMultipleAtLeast_of_dvd h)
        rw [hstride]
  cases side with
  | left => exact hleft h
  | right =>
    have hmirror : (plainLayout .right extents) = (Mapping.layoutLeft extents.reverse).mirror := by
      rw [Mapping.mirror, List.reverse_reverse]
      rfl
    have hreverse : paddedExtent .left extents.reverse = paddedExtent .right extents := by
      cases extents with
      | nil => rfl
      | cons e es =>
        change (e :: es).reverse.getD 0 0 = (e :: es).getD ((e :: es).length - 1) 0
        rw [List.getD_eq_getElem?_getD, List.getElem?_reverse (by simp), List.getD_eq_getElem?_getD,
          Nat.sub_zero]
    rw [hmirror, exactPadded_mirror, Mapping.strides_mirror (exactPadded_valid _ _ _),
      Mapping.strides_mirror (m := .layoutLeft _) trivial, hleft (by rwa [hreverse])]

/-! ## The promises -/

/-- What a mapping of a padded layout promises for the padding it was made with. -/
structure PaddedMapping.Tight (m : PaddedMapping) (p : ℕ) : Prop where
  rounded : 1 < m.extents.length → ∃ s : ℕ, m.paddingStride = s ∧
    if p = 0 then s = paddedExtent m.side m.extents
    else IsLeast {k | p ∣ k ∧ paddedExtent m.side m.extents ≤ k} s
  injective : ∀ i j x, InBox i m.extents → InBox j m.extents → m.call i = some x →
    m.call j = some x → i = j
  empty : 0 ∈ m.extents → m.requiredSpanSize = some 0
  span : 0 ∉ m.extents → ∃ size : ℕ, m.requiredSpanSize = some ((size + 1 : ℕ) : ℤ) ∧
    IsGreatest {x | ∃ i, InBox i m.extents ∧ m.call i = some x} (size : ℤ)
  summed : ∀ i, InBox i m.extents → ∃ strides : List ℕ, strides.length = m.extents.length ∧
    (∀ r (hr : r < strides.length), m.stride r = some (strides[r] : ℤ)) ∧
    m.call i = some (dot i strides : ℤ)
  /-- Through a `layout_stride::mapping` whose index type has the extents and the product too. -/
  converted : 0 ∉ m.extents → ∀ U, Representable m.side U m.extents p →
    ∃ strides : List ℕ, m.toStrides U = some (strides.map Nat.cast) ∧
      (∀ i, InBox i m.extents →
        m.call i = some ((Mapping.layoutStride m.extents strides).apply i : ℤ)) ∧
      .ofStrides m.side m.indexType m.extents (strides.map Nat.cast) = m
  coincides : (p = 0 ∨ p ∣ paddedExtent m.side m.extents) → ∀ i, InBox i m.extents →
    m.call i = some ((plainLayout m.side m.extents).apply i : ℤ)

theorem Representable.tight (h : Representable side T extents p) :
    (PaddedMapping.exact side T extents p).Tight p where
  rounded hrank := by
    have hrank' : 1 < extents.length := hrank
    refine ⟨exactStride side extents p, rfl, ?_⟩
    rw [exactStride_eq hrank']
    split
    · next hp => exact leastMultipleAtLeast_of_dvd (.inl hp)
    · next hp => exact leastMultipleAtLeast_isLeast hp
  injective i j x hi hj hx hy := by
    have hi' : InBox i extents := hi
    have hj' : InBox j extents := hj
    rw [call_eq h hi'] at hx
    rw [call_eq h hj', ← hx] at hy
    exact (exactPadded_injective hj' hi' (by exact_mod_cast Option.some.inj hy)).symm
  empty hzero := by
    rw [requiredSpanSize_eq h, Mapping.requiredSpanSize_eq_zero (by rwa [extents_exactPadded])]
    rfl
  span hne := by
    have hne' : 0 ∉ extents := hne
    refine ⟨(exactPadded side extents p).apply (last extents), ?_, ⟨last extents, inBox_last hne, ?_⟩, ?_⟩
    · rw [exactPadded_last hne']
      exact requiredSpanSize_eq h
    · exact call_eq h (inBox_last hne)
    · rintro x ⟨i, hi, hx⟩
      have hi' : InBox i extents := hi
      have hlt := Mapping.apply_lt (m := exactPadded side extents p) (by rwa [extents_exactPadded])
      rw [call_eq h hi'] at hx
      rw [← exactPadded_last hne'] at hlt
      rw [← Option.some.inj hx]
      exact_mod_cast Nat.le_of_lt_succ hlt
  summed i hi := by
    have hi' : InBox i extents := hi
    have hlen : (exactPadded side extents p).strides.length = extents.length := by
      rw [Mapping.length_strides, extents_exactPadded]
    refine ⟨(exactPadded side extents p).strides, hlen, ?_, ?_⟩
    · intro r hr
      rw [stride_eq hi'.zero_notMem h (by rwa [hlen] at hr)]
      simp [Mapping.strides]
    · rw [call_eq h hi', Mapping.apply_eq_dot (by rw [extents_exactPadded, hi'.length_eq])]
  converted hne U hU := by
    have hlen : (exactPadded side extents p).strides.length = extents.length := by
      rw [Mapping.length_strides, extents_exactPadded]
    refine ⟨(exactPadded side extents p).strides, toStrides_eq hne h hU, ?_, ofStrides_eq hne h⟩
    intro i hi
    have hi' : InBox i extents := hi
    rw [call_eq h hi', Mapping.apply_eq_dot (by rw [extents_exactPadded, hi'.length_eq])]
    change _ = some ((Mapping.layoutStride extents _).apply i : ℤ)
    rw [Mapping.apply_eq_dot (m := .layoutStride extents _) hi'.length_eq,
      Mapping.strides_layoutStride hlen]
  coincides hp i hi := by
    have hi' : InBox i extents := hi
    have hp' : p = 0 ∨ p ∣ paddedExtent side extents := hp
    have hplain : (plainLayout side extents).extents = extents := by
      cases side <;> rfl
    change _ = some ((plainLayout side extents).apply i : ℤ)
    rw [call_eq h hi', Mapping.apply_eq_dot (by rw [extents_exactPadded, hi'.length_eq]),
      strides_plain hp', Mapping.apply_eq_dot (by rw [hplain, hi'.length_eq])]

/-- The constructors make a mapping that keeps the promises. -/
theorem PaddedMapping.make_tight (side : Side) (T : IndexType) (paddingValue : Option ℕ)
    (extents : List ℕ) (padding : Option ℕ)
    (h : Representable side T extents (givenPadding paddingValue padding)) :
    ∃ m, PaddedMapping.make side T paddingValue extents padding = some m ∧
      m.side = side ∧ m.indexType = T ∧ m.extents = extents ∧
      m.Tight (givenPadding paddingValue padding) :=
  ⟨_, make_eq h, rfl, rfl, rfl, h.tight⟩

/-- Five rows padded to eight, in bytes. -/
theorem PaddedMapping.make_tight_bytes :
    ∃ m, PaddedMapping.make .left ⟨8, false⟩ (some 4) [5, 3] none = some m ∧
      m.side = .left ∧ m.indexType = ⟨8, false⟩ ∧ m.extents = [5, 3] ∧ m.Tight 4 :=
  PaddedMapping.make_tight .left ⟨8, false⟩ (some 4) [5, 3] none ⟨by decide, by decide, by decide⟩

/-- Without an element the product is zero, but the padding stride of `int` extents overflows, and
so does the stride of the third dimension in the conversion. -/
theorem PaddedMapping.make_empty_overflows :
    paddedProduct .left [2 ^ 31 - 1, 0] 2 ≤ IndexType.int.max ∧
      (∀ extent ∈ [2 ^ 31 - 1, 0], extent ≤ IndexType.int.max) ∧
      PaddedMapping.make .left .int (some 2) [2 ^ 31 - 1, 0] none = none ∧
      paddedProduct .left [2 ^ 20, 2 ^ 20, 0] 0 ≤ IndexType.int.max ∧
      (PaddedMapping.make .left .int none [2 ^ 20, 2 ^ 20, 0] none).isSome = true ∧
      (PaddedMapping.make .left .int none [2 ^ 20, 2 ^ 20, 0] none).bind (·.toStrides .int) = none := by
  decide

end CCForge.Submdspan
