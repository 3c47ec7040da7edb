import CCForge.Submdspan.Selection

/-!
# The layouts of the results

For a source whose strides grow from the first dimension on, each branch of
`submdspan_mapping` makes a mapping with the strides of the selection.
-/

namespace CCForge.Submdspan

open CCForge.Strided

variable {slice unit : Slice} {slices rest mid : List Slice} {extents σ σ' e e' es j : List ℕ}
  {src : Mapping} {dr n s : ℕ}

/-- A result that reaches each index of the selection with the strides of the selection. -/
structure Represents (src : Mapping) (slices : List Slice) (r : MappingResult) : Prop where
  extents : r.mapping.extents = selectedExtents src.extents slices
  valid : r.mapping.Valid
  apply : ∀ j, InBox j r.mapping.extents → r.mapping.apply j = dot j (subStrides src.strides slices)
  strides : src.Covers → 0 ∉ r.mapping.extents → r.mapping.strides = subStrides src.strides slices
  offset : r.offset = subOffset src slices

theorem represents_of_strides {m : Mapping} (he : m.extents = selectedExtents src.extents slices)
    (hv : m.Valid) (hs : m.strides = subStrides src.strides slices) :
    Represents src slices { mapping := m, offset := subOffset src slices } where
  extents := he
  valid := hv
  apply := fun j hj => by rw [Mapping.apply_eq_dot hj.length_eq, hs]
  strides := fun _ _ => hs
  offset := rfl

/-! ## Lists of slices -/

/-- Full extents, one unit stride slice, and indices from there on. -/
inductive UnitRun : List Slice → Prop
  | last (unit : Slice) (rest : List Slice) (hu : unit.isUnitStride = true)
      (hr : ∀ slice ∈ rest, slice.isIndex = true) : UnitRun (unit :: rest)
  | full (rest : List Slice) (hr : UnitRun rest) : UnitRun (.full :: rest)

/-- The extent that a slice keeps of a dimension. -/
def Slice.keptExtent (extent : ℕ) : Slice → ℕ
  | index _ => 0
  | full => extent
  | extentSlice _ sub _ _ => sub

theorem isIndex_of_isUnitStride (hu : unit.isUnitStride = true) : unit.isIndex = false := by
  cases unit <;> first | rfl | cases hu

theorem strideFactor_of_isUnitStride (hu : unit.isUnitStride = true) : unit.strideFactor = 1 := by
  cases unit with
  | index i => rfl
  | full => rfl
  | extentSlice offset sub stride staticStride =>
    simp only [Slice.isUnitStride, Bool.and_eq_true, beq_iff_eq] at hu
    simp [Slice.strideFactor, hu.2]

theorem selectedExtents_cons (x : ℕ) (hi : slice.isIndex = false) :
    selectedExtents (x :: extents) (slice :: slices) =
      slice.keptExtent x :: selectedExtents extents slices := by
  cases slice <;> first | rfl | cases hi

theorem selectedExtents_append (h : e.length = mid.length) :
    selectedExtents (e ++ e') (mid ++ rest) = selectedExtents e mid ++ selectedExtents e' rest := by
  induction mid generalizing e with
  | nil =>
    cases e with
    | nil => simp [selectedExtents]
    | cons x e => cases h
  | cons slice mid ih =>
    cases e with
    | nil => cases h
    | cons x e =>
      have hrest := ih (Nat.succ.inj h)
      cases slice <;> simp [selectedExtents, hrest]

theorem subStrides_append (h : σ.length = mid.length) :
    subStrides (σ ++ σ') (mid ++ rest) = subStrides σ mid ++ subStrides σ' rest := by
  induction mid generalizing σ with
  | nil =>
    cases σ with
    | nil => simp [subStrides]
    | cons x σ => cases h
  | cons slice mid ih =>
    cases σ with
    | nil => cases h
    | cons x σ =>
      have hrest := ih (Nat.succ.inj h)
      cases slice <;> simp [subStrides, Slice.isIndex, hrest]

theorem selectedExtents_index (h : ∀ slice ∈ mid, slice.isIndex = true) :
    selectedExtents e mid = [] := by
  induction mid generalizing e with
  | nil => cases e <;> rfl
  | cons slice mid ih =>
    cases e with
    | nil => cases slice <;> rfl
    | cons x e =>
      have hrest := ih (e := e) fun slice hs => h slice (List.mem_cons_of_mem _ hs)
      have hi := h slice List.mem_cons_self
      cases slice <;> first | exact hrest | cases hi

theorem subStrides_index (h : ∀ slice ∈ mid, slice.isIndex = true) : subStrides σ mid = [] := by
  induction mid generalizing σ with
  | nil => cases σ <;> rfl
  | cons slice mid ih =>
    cases σ with
    | nil => rfl
    | cons x σ =>
      rw [subStrides, if_pos (h slice List.mem_cons_self)]
      exact ih fun slice hs => h slice (List.mem_cons_of_mem _ hs)

theorem keptRank_eq_zero (h : keptRank slices = 0) : ∀ slice ∈ slices, slice.isIndex = true := by
  simpa [keptRank] using h

theorem unitRun_of (n : ℕ) (hf : (slices.take n).all Slice.isFull = true)
    (hu : (slices[n]?).any Slice.isUnitStride = true)
    (hi : (slices.drop (n + 1)).all Slice.isIndex = true) : UnitRun slices := by
  induction n generalizing slices with
  | zero =>
    cases slices with
    | nil => cases hu
    | cons slice slices =>
      refine .last slice slices hu ?_
      simpa using hi
  | succ n ih =>
    cases slices with
    | nil => cases hu
    | cons slice slices =>
      simp only [List.take_succ_cons, List.all_cons, Bool.and_eq_true] at hf
      have hfull : slice = .full := by
        cases slice <;> first | rfl | cases hf.1
      rw [hfull]
      exact .full slices (ih hf.2 (by simpa using hu) (by simpa using hi))

theorem unitRun_of_llPreserving (h : llPreserving dr slices = true) (hdr : dr ≠ 0) :
    UnitRun slices := by
  unfold llPreserving at h
  rw [if_neg hdr] at h
  split at h
  · dsimp only at h
    split at h
    · cases h
    · simp only [Bool.and_eq_true] at h
      exact unitRun_of _ h.1.2 h.1.1 h.2
  · simp only [Bool.and_eq_true] at h
    refine unitRun_of (dr - 1) h.1.1 h.1.2 ?_
    rw [Nat.sub_add_cancel (Nat.pos_of_ne_zero hdr)]
    exact h.2

/-- The kept dimensions of a run follow each other, so their strides do as in a layout of
their own. -/
theorem UnitRun.strides (h : UnitRun slices) (hlen : extents.length = slices.length) (s : ℕ) :
    columnStrides s (selectedExtents extents slices) = subStrides (columnStrides s extents) slices := by
  induction h generalizing extents s with
  | last unit rest hu hr =>
    cases extents with
    | nil => cases hlen
    | cons x extents =>
      have hi := isIndex_of_isUnitStride hu
      show _ = subStrides (s :: columnStrides (s * x) extents) (unit :: rest)
      rw [selectedExtents_cons x hi, selectedExtents_index hr, subStrides, hi, subStrides_index hr,
        strideFactor_of_isUnitStride hu, Nat.mul_one]
      rfl
  | full rest _ ih =>
    cases extents with
    | nil => cases hlen
    | cons x extents =>
      have hrest := ih (Nat.succ.inj hlen) (s * x)
      simp [selectedExtents, columnStrides, subStrides, Slice.isIndex, Slice.strideFactor,
        Slice.strideOf, hrest]

theorem keptExtent_le {x : ℕ} (hv : unit.Valid x) (hu : unit.isUnitStride = true) :
    unit.keptExtent x ≤ x := by
  cases unit with
  | index i => cases hu
  | full => exact le_rfl
  | extentSlice offset sub stride staticStride =>
    simp only [Slice.isUnitStride, Bool.and_eq_true, beq_iff_eq] at hu
    obtain ⟨-, rfl⟩ := hu
    obtain rfl | hsub := Nat.eq_zero_or_pos sub
    · exact Nat.zero_le x
    · have hlt := hv.1 hsub
      simp only [Slice.keptExtent]
      omega

/-- A run keeps no extent that is greater than that of the source. -/
theorem UnitRun.le_of_forall_le (h : UnitRun slices) (hv : ValidSlices extents slices)
    (hle : ∀ x ∈ extents, x ≤ n) : ∀ x ∈ selectedExtents extents slices, x ≤ n := by
  induction h generalizing extents with
  | last unit rest hu hr =>
    cases hv with
    | @cons x _ xs _ hx _ =>
      rw [selectedExtents_cons x (isIndex_of_isUnitStride hu), selectedExtents_index hr]
      simp only [List.mem_singleton, forall_eq]
      exact (keptExtent_le hx hu).trans (hle x List.mem_cons_self)
  | full rest _ ih =>
    cases hv with
    | @cons x _ xs _ hx hv =>
      intro y hy
      obtain rfl | hy := List.mem_cons.mp hy
      · exact hle y List.mem_cons_self
      · exact ih hv (fun z hz => hle z (List.mem_cons_of_mem _ hz)) y hy

/-! ## The padding -/

theorem le_leastMultipleAtLeast (alignment value : ℕ) : value ≤ leastMultipleAtLeast alignment value := by
  unfold leastMultipleAtLeast
  dsimp only
  split
  · exact le_rfl
  · split
    · omega
    · split
      · exact le_rfl
      · exact Nat.le_add_right _ _

/-- An extent that is not greater than the padding is padded to it. -/
theorem leastMultipleAtLeast_eq {alignment value : ℕ} (hpos : 0 < value) (hle : value ≤ alignment) :
    leastMultipleAtLeast alignment value = alignment := by
  unfold leastMultipleAtLeast
  rw [if_neg (by omega), if_neg (by omega)]
  obtain rfl | hlt := Nat.eq_or_lt_of_le hle
  · rw [Nat.mod_self, if_pos rfl]
  · dsimp only
    rw [Nat.mod_eq_of_lt hlt, if_neg (by omega)]
    omega

theorem keptRank_cons (hi : slice.isIndex = false) : keptRank (slice :: slices) = keptRank slices + 1 := by
  simp [keptRank, hi]

theorem keptRank_append : keptRank (mid ++ rest) = keptRank mid + keptRank rest := List.countP_append

/-- The slices of a run up to its last one all keep their dimension. -/
theorem keptRank_take (n : ℕ) (hf : (slices.take n).all Slice.isFull = true)
    (hu : (slices[n]?).any Slice.isUnitStride = true) : keptRank (slices.take (n + 1)) = n + 1 := by
  induction n generalizing slices with
  | zero =>
    cases slices with
    | nil => cases hu
    | cons slice slices =>
      rw [List.take_succ_cons, keptRank_cons (isIndex_of_isUnitStride hu)]
      rfl
  | succ n ih =>
    cases slices with
    | nil => cases hu
    | cons slice slices =>
      simp only [List.take_succ_cons, List.all_cons, Bool.and_eq_true] at hf
      have hi : slice.isIndex = false := by
        cases slice <;> first | rfl | cases hf.1
      rw [List.take_succ_cons, keptRank_cons hi, ih hf.2 (by simpa using hu)]

/-- The padded branch is taken for a unit stride slice, indices, and a run. -/
theorem run_of_leftPaddedStrideIndex (hdr : keptRank slices = dr)
    (h : leftPaddedStrideIndex dr slices ≠ slices.length) :
    ∃ unit mid run, slices = unit :: (mid ++ run) ∧ unit.isUnitStride = true ∧
      (∀ slice ∈ mid, slice.isIndex = true) ∧ UnitRun run ∧
      leftPaddedStrideIndex dr slices = 1 + mid.length := by
  unfold leftPaddedStrideIndex at h ⊢
  dsimp only at h ⊢
  split at h
  · exact absurd rfl h
  next hranks =>
  rw [if_neg hranks]
  split at h
  · exact absurd rfl h
  next hfirst =>
  rw [if_neg hfirst]
  split at h
  · exact absurd rfl h
  next hbound =>
  rw [if_neg hbound]
  split at h
  on_goal 2 => exact absurd rfl h
  next hfulls =>
  rw [if_pos hfulls]
  split at h
  on_goal 2 => exact absurd rfl h
  next hfinal =>
  rw [if_pos hfinal]
  cases slices with
  | nil => exact absurd (Or.inr (by simp)) hranks
  | cons unit tail =>
    simp only [List.drop_succ_cons, List.drop_zero, List.length_cons, not_or, not_lt] at *
    have hle : tail.findIdx Slice.isUnitStride ≤ tail.length := List.findIdx_le_length
    generalize tail.findIdx Slice.isUnitStride = n at *
    have hunit : unit.isUnitStride = true := by simpa using hfirst
    have hmid : (tail.take n).length = n := List.length_take_of_le hle
    have hshape : (tail.drop n).take (dr - 2) = ((unit :: tail).take (1 + n + (dr - 2))).drop (1 + n) := by
      rw [List.drop_take, Nat.add_comm 1 n, List.drop_succ_cons]
      congr 1
      omega
    have hget : (tail.drop n)[dr - 2]? = (unit :: tail)[1 + n + (dr - 2)]? := by
      rw [List.getElem?_drop, show 1 + n + (dr - 2) = n + (dr - 2) + 1 by omega,
        List.getElem?_cons_succ]
    rw [← hshape] at hfulls
    rw [← hget] at hfinal
    -- The kept dimensions are the first, those of the run and no other.
    have hcount : keptRank (tail.take n) = 0 ∧ keptRank ((tail.drop n).drop (dr - 2 + 1)) = 0 := by
      have hrun := keptRank_take (dr - 2) hfulls hfinal
      have hall : keptRank (tail.take n) + keptRank (tail.drop n) + 1 = dr := by
        rw [← keptRank_append, List.take_append_drop, ← hdr,
          keptRank_cons (isIndex_of_isUnitStride hunit)]
      have hsplit : keptRank ((tail.drop n).take (dr - 2 + 1)) +
          keptRank ((tail.drop n).drop (dr - 2 + 1)) = keptRank (tail.drop n) := by
        rw [← keptRank_append, List.take_append_drop]
      omega
    refine ⟨unit, tail.take n, tail.drop n, ?_, hunit, keptRank_eq_zero hcount.1, ?_, ?_⟩
    · rw [List.take_append_drop]
    · exact unitRun_of (dr - 2) hfulls hfinal (List.all_eq_true.mpr (keptRank_eq_zero hcount.2))
    · rw [hmid]

/-! ## The branches -/

/-- A source whose strides grow from the first dimension on, with `s` as the second stride. -/
structure Columns (src : Mapping) (x : ℕ) (xs : List ℕ) (s : ℕ) : Prop where
  extents : src.extents = x :: xs
  strides : src.strides = 1 :: columnStrides s xs
  fits : Mapping.PaddingFits x xs s
  covers : src.Covers → xs ≠ [] → x ≤ s

theorem columns_layoutLeft (x : ℕ) (xs : List ℕ) : Columns (.layoutLeft (x :: xs)) x xs x where
  extents := rfl
  strides := by
    rw [Mapping.strides_layoutLeft, columnStrides, Nat.one_mul]
  fits := .inl le_rfl
  covers := fun _ _ => le_rfl

theorem columns_layoutLeftPadded {x : ℕ} {xs : List ℕ} {stride1 : ℕ}
    (h : (Mapping.layoutLeftPadded (x :: xs) stride1).Valid) :
    Columns (.layoutLeftPadded (x :: xs) stride1) x xs stride1 where
  extents := rfl
  strides := Mapping.strides_layoutLeftPadded x xs stride1
  fits := h x xs rfl
  covers := fun hc => hc x xs rfl

theorem Columns.stride {x : ℕ} {xs : List ℕ} (h : Columns src x xs s) (hn : n < xs.length) :
    src.stride (1 + n) = s * (xs.take n).prod := by
  have hrank : 1 + n < src.rank := by
    rw [Mapping.rank, h.extents, List.length_cons]
    omega
  have hget : src.strides[1 + n]? = some (src.stride (1 + n)) := by
    simp [Mapping.strides, hrank]
  rw [h.strides, Nat.add_comm 1 n, List.getElem?_cons_succ, columnStrides_eq_map] at hget
  simp only [List.getElem?_map, List.getElem?_range hn, Option.map_some, Option.some.injEq] at hget
  rw [Nat.add_comm 1 n, ← hget]

theorem represents_nil (src : Mapping) (hlen : src.extents.length = slices.length)
    (h : selectedExtents src.extents slices = []) :
    Represents src slices
      { mapping := .layoutLeft (subextents src.extents slices), offset := subOffset src slices } := by
  rw [subextents_eq]
  refine represents_of_strides rfl trivial ?_
  have hsub : (subStrides src.strides slices).length = (selectedExtents src.extents slices).length := by
    rw [length_subStrides (by rw [Mapping.length_strides, hlen]), length_selectedExtents hlen]
  rw [h] at hsub ⊢
  exact (List.length_eq_zero_iff.mp hsub).symm

theorem represents_stridedResult (src : Mapping) (h : ValidSlices src.extents slices) :
    Represents src slices (stridedResult src slices) := by
  have hlen := h.length_eq
  have hσ : (subStrides src.strides slices).length = (selectedExtents src.extents slices).length := by
    rw [length_subStrides (by rw [Mapping.length_strides, hlen]), length_selectedExtents hlen]
  unfold stridedResult
  rw [subextents_eq, buildSubStrides_eq hlen.symm]
  exact represents_of_strides rfl hσ (Mapping.strides_layoutStride hσ)

/-- What is selected where the padded branch is taken. -/
theorem Columns.padded {x : ℕ} {xs : List ℕ} (h : Columns src x xs s)
    (hv : ValidSlices src.extents slices) (hdr : keptRank slices = dr)
    (hi : leftPaddedStrideIndex dr slices ≠ slices.length) :
    ∃ y ys, selectedExtents src.extents slices = y :: ys ∧ ys ≠ [] ∧ xs ≠ [] ∧
      subStrides src.strides slices =
        1 :: columnStrides (src.stride (leftPaddedStrideIndex dr slices)) ys ∧
      (0 ∉ y :: ys → s ≤ src.stride (leftPaddedStrideIndex dr slices)) ∧ y ≤ x ∧
      ((∀ z ∈ xs, z ≤ 1) → ∀ z ∈ ys, z ≤ 1) := by
  obtain ⟨unit, mid, run, rfl, hu, hmid, hrun, hindex⟩ := run_of_leftPaddedStrideIndex hdr hi
  have hlen : xs.length = mid.length + run.length := by
    have hl := hv.length_eq
    rw [h.extents, List.length_cons, List.length_cons, List.length_append] at hl
    exact Nat.succ.inj hl
  have hsplit : xs = xs.take mid.length ++ xs.drop mid.length := (List.take_append_drop _ _).symm
  have htake : (xs.take mid.length).length = mid.length := List.length_take_of_le (by omega)
  have hdrop : (xs.drop mid.length).length = run.length := by
    rw [List.length_drop]
    omega
  have hpos : 0 < run.length := by
    cases hrun <;> exact Nat.succ_pos _
  have hstride := h.stride (n := mid.length) (by omega)
  rw [hindex, hstride]
  have hsel : selectedExtents src.extents (unit :: (mid ++ run)) =
      unit.keptExtent x :: selectedExtents (xs.drop mid.length) run := by
    rw [h.extents, selectedExtents_cons x (isIndex_of_isUnitStride hu)]
    conv_lhs => rw [hsplit]
    rw [selectedExtents_append htake, selectedExtents_index hmid, List.nil_append]
  have hsub : subStrides src.strides (unit :: (mid ++ run)) =
      1 :: columnStrides (s * (xs.take mid.length).prod) (selectedExtents (xs.drop mid.length) run) := by
    have hrest : subStrides (columnStrides s xs) (mid ++ run) =
        columnStrides (s * (xs.take mid.length).prod) (selectedExtents (xs.drop mid.length) run) := by
      conv_lhs => rw [hsplit]
      rw [columnStrides_append, subStrides_append (by rw [length_columnStrides, htake]),
        subStrides_index hmid, List.nil_append, hrun.strides hdrop]
    rw [h.strides, subStrides, isIndex_of_isUnitStride hu, strideFactor_of_isUnitStride hu, hrest]
    rfl
  have hvrun : unit.Valid x ∧ ValidSlices (xs.drop mid.length) run := by
    rw [h.extents] at hv
    cases hv with
    | cons hx hv =>
      refine ⟨hx, ?_⟩
      have hd := List.forall₂_drop mid.length hv
      rwa [List.drop_left] at hd
  refine ⟨_, _, hsel, ?_, List.ne_nil_of_length_pos (by omega), hsub, ?_, keptExtent_le hvrun.1 hu, ?_⟩
  · intro hnil
    cases hrun with
    | last unit rest hu hr =>
      obtain ⟨z, zs, hz⟩ := List.exists_cons_of_length_pos (hdrop ▸ hpos)
      rw [hz, selectedExtents_cons z (isIndex_of_isUnitStride hu)] at hnil
      cases hnil
    | full rest hr =>
      obtain ⟨z, zs, hz⟩ := List.exists_cons_of_length_pos (hdrop ▸ hpos)
      rw [hz] at hnil
      cases hnil
  · intro hzero
    have hbox := inBox_select hv (inBox_last (hsel ▸ hzero))
    have hnot := hbox.zero_notMem
    rw [h.extents, List.mem_cons, not_or] at hnot
    have hprod : 0 < (xs.take mid.length).prod :=
      prod_pos fun hmem => hnot.2 (List.mem_of_mem_take hmem)
    exact Nat.le_mul_of_pos_right s hprod
  · intro hle
    exact hrun.le_of_forall_le hvrun.2 fun z hz => hle z (List.mem_of_mem_drop hz)

/-- The padded branch. -/
theorem Columns.represents_padded {x : ℕ} {xs : List ℕ} (h : Columns src x xs s)
    (hv : ValidSlices src.extents slices) (hdr : keptRank slices = dr)
    (hi : leftPaddedStrideIndex dr slices ≠ slices.length) :
    Represents src slices
      { mapping := .makeLeftPadded (subextents src.extents slices)
          (src.stride (leftPaddedStrideIndex dr slices)),
        offset := subOffset src slices } := by
  obtain ⟨y, ys, hsel, hys, hxs, hsub, hle, hyx, hone⟩ := h.padded hv hdr hi
  have hlen : (y :: ys).length > 1 := by
    rw [List.length_cons]
    exact Nat.succ_lt_succ (List.length_pos_iff.mpr hys)
  have hmapping : Mapping.makeLeftPadded (subextents src.extents slices)
      (src.stride (leftPaddedStrideIndex dr slices)) = .layoutLeftPadded (y :: ys)
        (leastMultipleAtLeast (src.stride (leftPaddedStrideIndex dr slices)) y) := by
    rw [subextents_eq, hsel, Mapping.makeLeftPadded, if_pos hlen]
    rfl
  have hexact : x ≤ s → 0 ∉ y :: ys →
      leastMultipleAtLeast (src.stride (leftPaddedStrideIndex dr slices)) y =
        src.stride (leftPaddedStrideIndex dr slices) := by
    intro hfit hzero
    refine leastMultipleAtLeast_eq ?_ (hyx.trans (hfit.trans (hle hzero)))
    exact Nat.pos_of_ne_zero fun hy0 => hzero (hy0 ▸ List.mem_cons_self)
  rw [hmapping]
  refine ⟨hsel.symm, ?_, ?_, ?_, rfl⟩
  · intro e es hes
    obtain ⟨rfl, rfl⟩ := List.cons.inj hes
    exact .inl (le_leastMultipleAtLeast _ _)
  · intro j hj
    have hzero : 0 ∉ y :: ys := hj.zero_notMem
    rw [Mapping.apply_eq_dot hj.length_eq, Mapping.strides_layoutLeftPadded, hsub]
    obtain hfit | hempty | hothers := h.fits
    · rw [hexact hfit hzero]
    · have hbox := inBox_select hv (inBox_last (hsel ▸ hzero))
      rw [← h.extents] at hempty
      exact absurd hempty hbox.zero_notMem
    · cases hj with
      | cons _ hjs =>
        rw [dot, dot, dot_eq_zero hjs (hone hothers), dot_eq_zero hjs (hone hothers)]
  · intro hcovers hzero
    rw [Mapping.strides_layoutLeftPadded, hexact (h.covers hcovers hxs) hzero, hsub]

/-- The branch that keeps the layout. -/
theorem represents_run (hs : src.strides = columnStrides 1 src.extents)
    (hv : ValidSlices src.extents slices) (hrun : UnitRun slices) :
    Represents src slices
      { mapping := .layoutLeft (subextents src.extents slices), offset := subOffset src slices } := by
  rw [subextents_eq]
  refine represents_of_strides rfl trivial ?_
  rw [Mapping.strides_layoutLeft, hs]
  exact hrun.strides hv.length_eq 1

theorem subOffset_nil (src : Mapping) (h : src.extents = []) (hv : ValidSlices src.extents slices) :
    subOffset src slices = 0 := by
  rw [h] at hv
  cases hv
  simp [subOffset, h, anyOob, Mapping.apply, Mapping.sumFrom]

theorem selectedExtents_nil (hv : ValidSlices [] slices) : selectedExtents [] slices = [] := by
  cases hv
  rfl

theorem length_subextents (hv : ValidSlices extents slices) :
    (subextents extents slices).length = keptRank slices := by
  rw [subextents_eq, length_selectedExtents hv.length_eq]

theorem represents_layoutLeft (hv : ValidSlices extents slices) :
    Represents (.layoutLeft extents) slices (submdspanMappingLeft extents slices) := by
  have hkept := length_subextents hv
  unfold submdspanMappingLeft
  dsimp only
  split
  · next hsr =>
    have hnil : extents = [] := List.length_eq_zero_iff.mp hsr
    subst hnil
    have hr := represents_nil (.layoutLeft []) hv.length_eq (selectedExtents_nil hv)
    rwa [subOffset_nil (.layoutLeft []) rfl hv] at hr
  · next hsr =>
    split
    · next hdr =>
      exact represents_nil (.layoutLeft extents) hv.length_eq
        ((subextents_eq _ _).symm.trans (List.length_eq_zero_iff.mp hdr))
    · next hdr =>
      split
      · next hp =>
        exact represents_run (Mapping.strides_layoutLeft extents) hv (unitRun_of_llPreserving hp hdr)
      · split
        · next hi =>
          obtain ⟨x, xs, rfl⟩ := List.exists_cons_of_ne_nil (mt List.length_eq_zero_iff.mpr hsr)
          rw [hv.length_eq] at hi
          exact (columns_layoutLeft x xs).represents_padded hv hkept.symm hi
        · exact represents_stridedResult _ hv

theorem represents_layoutStride {strides : List ℕ} (hs : (Mapping.layoutStride extents strides).Valid)
    (hv : ValidSlices extents slices) :
    Represents (.layoutStride extents strides) slices (submdspanMappingStride extents strides slices) := by
  unfold submdspanMappingStride
  dsimp only
  split
  · next hsr =>
    have hnil : extents = [] := List.length_eq_zero_iff.mp hsr
    subst hnil
    have hr := represents_stridedResult (.layoutStride [] strides) hv
    cases hv
    exact hr
  · exact represents_stridedResult _ hv

theorem represents_layoutLeftPadded {stride1 : ℕ}
    (hs : (Mapping.layoutLeftPadded extents stride1).Valid) (hv : ValidSlices extents slices) :
    Represents (.layoutLeftPadded extents stride1) slices
      (submdspanMappingLeftPadded extents stride1 slices) := by
  have hkept := length_subextents hv
  unfold submdspanMappingLeftPadded
  dsimp only
  split
  · next hsr =>
    have hnil : extents = [] := List.length_eq_zero_iff.mp hsr
    subst hnil
    cases hv
    exact represents_of_strides rfl (by simp [Mapping.Valid]) rfl
  · next hsr =>
    obtain ⟨x, xs, rfl⟩ := List.exists_cons_of_ne_nil (mt List.length_eq_zero_iff.mpr hsr)
    have hc := columns_layoutLeftPadded hs
    split
    · next hdr =>
      exact represents_nil (.layoutLeftPadded (x :: xs) stride1) hv.length_eq
        ((subextents_eq _ _).symm.trans (List.length_eq_zero_iff.mp hdr))
    · split
      · next hdr hone =>
        cases hv with
        | @cons _ unit _ slices hx hv =>
          obtain ⟨hdr1, hu⟩ := hone
          have hi := isIndex_of_isUnitStride hu
          rw [hkept, keptRank_cons hi] at hdr1
          have hrest := keptRank_eq_zero (Nat.succ.inj hdr1)
          rw [subextents_eq]
          refine represents_of_strides rfl trivial ?_
          rw [hc.strides, Mapping.strides_layoutLeft, selectedExtents_cons x hi,
            selectedExtents_index hrest, subStrides, hi, subStrides_index hrest,
            strideFactor_of_isUnitStride hu]
          rfl
      · split
        · next hi =>
          rw [hv.length_eq] at hi
          exact hc.represents_padded hv hkept.symm hi
        · exact represents_stridedResult _ hv

end CCForge.Submdspan
