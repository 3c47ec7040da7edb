import CCForge.Lib.Strided

/-!
# submdspan

A layout mapping takes a multi-index to an offset. `submdspan_mapping` takes a mapping and
one canonical slice for each dimension and makes the mapping of the selected elements, with
the offset of the first one. The layout of the result depends on the layout of the source
and on the types of the slices.

The arithmetic is exact. What is known of an extent or an offset at compile time has no
influence on the results and is left out. The stride of an `extent_slice` is different: a
slice is a unit stride slice only when its stride is a compile time constant.
-/

namespace CCForge.Submdspan

open CCForge.Strided

/-! ## Slices -/

/-- A canonical slice. -/
inductive Slice where
  | index (i : ℕ)
  | full
  /-- `extent_slice`. Its stride is a `constant_wrapper` where `staticStride`. -/
  | extentSlice (offset extent stride : ℕ) (staticStride : Bool)
  deriving DecidableEq, Repr

namespace Slice

/-- `is_index_slice_v`. -/
def isIndex : Slice → Bool
  | index _ => true
  | _ => false

def isFull : Slice → Bool
  | full => true
  | _ => false

/-- `is_unit_stride_slice_v`. -/
def isUnitStride : Slice → Bool
  | index _ => false
  | full => true
  | extentSlice _ _ stride staticStride => staticStride && stride == 1

/-- `first_of`. -/
def firstOf : Slice → ℕ
  | index i => i
  | full => 0
  | extentSlice offset _ _ _ => offset

/-- `last_of` for the dimension with the given extent. -/
def lastOf (extent : ℕ) : Slice → ℕ
  | index i => i
  | full => extent
  | extentSlice _ extent _ _ => extent

/-- `stride_of`. -/
def strideOf : Slice → ℕ
  | extentSlice _ _ stride _ => stride
  | _ => 1

/-- `stride_factor` in `make_sf_impl`. -/
def strideFactor : Slice → ℕ
  | extentSlice _ extent stride _ => if extent > 1 then stride else 1
  | slice => slice.strideOf

/-- `one_oob`. -/
def oneOob (extent : ℕ) (slice : Slice) : Bool := slice.firstOf == extent

/-- What the callers of `submdspan_mapping` have to give for a dimension of the source. -/
def Valid (extent : ℕ) : Slice → Prop
  | index i => i < extent
  | full => True
  | extentSlice offset sub stride _ =>
    (0 < sub → offset + (sub - 1) * stride < extent) ∧ (sub = 0 → offset ≤ extent)

instance (extent : ℕ) (slice : Slice) : Decidable (slice.Valid extent) := by
  cases slice <;> unfold Valid <;> infer_instance

end Slice

def ValidSlices (extents : List ℕ) (slices : List Slice) : Prop :=
  List.Forall₂ Slice.Valid extents slices

/-- `any_oob`. -/
def anyOob (extents : List ℕ) (slices : List Slice) : Bool :=
  (List.zipWith Slice.oneOob extents slices).any id

/-- `EB::apply`, with the extents of the result so far in `rest`. -/
def extentsBuilder : List ℕ → List Slice → List ℕ → List ℕ
  | extent :: extents, slice :: slices, rest =>
    match slice with
    | .full => extentsBuilder extents slices (rest ++ [slice.lastOf extent - slice.firstOf])
    | .index _ => extentsBuilder extents slices rest
    | .extentSlice _ sub _ _ => extentsBuilder extents slices (rest ++ [sub])
  | _, _, rest => rest

/-- `subextents` for canonical slices. -/
def subextents (extents : List ℕ) (slices : List Slice) : List ℕ := extentsBuilder extents slices []

/-- `inv_map_rank`: the source dimensions `c`, `c + 1`, .. whose slices keep the dimension. -/
def invMapRank : ℕ → List ℕ → List Slice → List ℕ
  | _, ms, [] => ms
  | c, ms, slice :: rest => invMapRank (c + 1) (if slice.isIndex then ms else ms ++ [c]) rest

def makeStrideFactors (slices : List Slice) : List ℕ := slices.map Slice.strideFactor

/-! ## Mappings -/

/-- `least_multiple_at_least` of the padded layouts. -/
def leastMultipleAtLeast (alignment value : ℕ) : ℕ :=
  if alignment = 0 then value
  else if value = 0 then 0
  else
    let remainder := value % alignment
    if remainder = 0 then value else value + (alignment - remainder)

/-- A mapping of one of the five layouts. -/
inductive Mapping where
  | layoutLeft (extents : List ℕ)
  | layoutRight (extents : List ℕ)
  | layoutStride (extents strides : List ℕ)
  /-- The stride of the second dimension is `stride1`. -/
  | layoutLeftPadded (extents : List ℕ) (stride1 : ℕ)
  /-- The stride of the last dimension but one is `strideRm2`. -/
  | layoutRightPadded (extents : List ℕ) (strideRm2 : ℕ)
  deriving DecidableEq, Repr

namespace Mapping

def extents : Mapping → List ℕ
  | layoutLeft extents => extents
  | layoutRight extents => extents
  | layoutStride extents _ => extents
  | layoutLeftPadded extents _ => extents
  | layoutRightPadded extents _ => extents

def rank (m : Mapping) : ℕ := m.extents.length

/-- `layout_left_padded::mapping::stride`. The product is its loop over the extents from 1 on. -/
def leftPaddedStride (extents : List ℕ) (stride1 r : ℕ) : ℕ :=
  if extents.length = 0 then 1
  else if r = 0 then 1
  else if r = 1 then stride1
  else stride1 * ((extents.take r).drop 1).prod

/-- `layout_right_padded::mapping::stride`. The product is its loop over the extents from `r + 1`
on, without the last. -/
def rightPaddedStride (extents : List ℕ) (strideRm2 r : ℕ) : ℕ :=
  if extents.length = 0 then 1
  else if r + 1 = extents.length then 1
  else if r + 2 = extents.length then strideRm2
  else strideRm2 * ((extents.take (extents.length - 1)).drop (r + 1)).prod

def stride (m : Mapping) (r : ℕ) : ℕ :=
  match m with
  | layoutLeft extents => (extents.take r).prod
  | layoutRight extents => (extents.drop (r + 1)).prod
  | layoutStride _ strides => strides.getD r 0
  | layoutLeftPadded extents stride1 => leftPaddedStride extents stride1 r
  | layoutRightPadded extents strideRm2 => rightPaddedStride extents strideRm2 r

/-- The sum over the dimensions from `r` on, of a given index times the stride. -/
def sumFrom (m : Mapping) : ℕ → List ℕ → ℕ
  | _, [] => 0
  | r, i :: is => i * m.stride r + m.sumFrom (r + 1) is

/-- `operator()`. -/
def apply (m : Mapping) (idxs : List ℕ) : ℕ := m.sumFrom 0 idxs

/-- The loop of `required_span_size` for extents that are not empty. -/
def spanOf (m : Mapping) : ℕ := m.sumFrom 0 (m.extents.map (· - 1)) + 1

def requiredSpanSize (m : Mapping) : ℕ :=
  match m with
  | layoutLeft extents => extents.prod
  | layoutRight extents => extents.prod
  | layoutStride extents _ => if 0 ∈ extents then 0 else m.spanOf
  | layoutLeftPadded extents _ => if 0 ∈ extents then 0 else m.spanOf
  | layoutRightPadded extents _ => if 0 ∈ extents then 0 else m.spanOf

/-- The constructor of `layout_left_padded::mapping` from extents and a padding. -/
def makeLeftPadded (extents : List ℕ) (padding : ℕ) : Mapping :=
  layoutLeftPadded extents
    (if extents.length > 1 then leastMultipleAtLeast padding (extents.getD 0 0) else 1)

/-- The constructor of `layout_right_padded::mapping` from extents and a padding. -/
def makeRightPadded (extents : List ℕ) (padding : ℕ) : Mapping :=
  layoutRightPadded extents
    (if extents.length > 1 then leastMultipleAtLeast padding (extents.getD (extents.length - 1) 0)
     else 1)

/-- Whether a padding stride keeps the elements apart: it is not less than the padded extent,
unless no other dimension has more than one index. -/
def PaddingFits (padded : ℕ) (others : List ℕ) (stride : ℕ) : Prop :=
  padded ≤ stride ∨ 0 ∈ padded :: others ∨ ∀ extent ∈ others, extent ≤ 1

/-- The padding stride of a padded layout is at least the padded extent, as the constructors from
extents make it. -/
def Covers : Mapping → Prop
  | layoutLeftPadded extents stride1 => ∀ e es, extents = e :: es → es ≠ [] → e ≤ stride1
  | layoutRightPadded extents strideRm2 => ∀ e es, extents = es ++ [e] → es ≠ [] → e ≤ strideRm2
  | _ => True

/-- What each mapping object has. `is_always_unique` promises that the padded layouts keep the
elements apart. -/
def Valid : Mapping → Prop
  | layoutLeft _ => True
  | layoutRight _ => True
  | layoutStride extents strides => strides.length = extents.length
  | layoutLeftPadded extents stride1 => ∀ e es, extents = e :: es → PaddingFits e es stride1
  | layoutRightPadded extents strideRm2 => ∀ e es, extents = es ++ [e] → PaddingFits e es strideRm2

end Mapping

/-! ## The choice of the layout -/

/-- `ll_preserving`. -/
def llPreserving (subRank : ℕ) (slices : List Slice) : Bool :=
  if subRank = 0 then true
  else if subRank = 1 then
    let firstRng := slices.findIdx fun slice => !slice.isIndex
    if firstRng = slices.length then false
    else
      (slices[firstRng]?).any Slice.isUnitStride && (slices.take firstRng).all Slice.isFull &&
        (slices.drop (firstRng + 1)).all Slice.isIndex
  else
    (slices.take (subRank - 1)).all Slice.isFull && (slices[subRank - 1]?).any Slice.isUnitStride &&
      (slices.drop subRank).all Slice.isIndex

/-- `lr_preserving`. -/
def lrPreserving (subRank : ℕ) (slices : List Slice) : Bool :=
  let srcRank := slices.length
  if subRank = 0 then true
  else if subRank = 1 then
    -- The loop goes down from the last slice.
    let steps := slices.reverse.findIdx fun slice => !slice.isIndex
    if steps = srcRank then false
    else
      let lastRng := srcRank - 1 - steps
      (slices[lastRng]?).any Slice.isUnitStride && (slices.drop (lastRng + 1)).all Slice.isFull &&
        (slices.take lastRng).all Slice.isIndex
  else
    (slices.drop (srcRank - subRank + 1)).all Slice.isFull &&
      (slices[srcRank - subRank]?).any Slice.isUnitStride &&
      (slices.take (srcRank - subRank)).all Slice.isIndex

/-- `left_padded_stride_index`. -/
def leftPaddedStrideIndex (subRank : ℕ) (slices : List Slice) : ℕ :=
  let srcRank := slices.length
  if subRank < 2 ∨ srcRank < 2 then srcRank
  else if ¬(slices[0]?).any Slice.isUnitStride then srcRank
  else
    let strideIndex := 1 + (slices.drop 1).findIdx Slice.isUnitStride
    if strideIndex = srcRank ∨ subRank - 2 > srcRank - 1 - strideIndex then srcRank
    else
      let finalUnit := strideIndex + (subRank - 2)
      if ((slices.take finalUnit).drop strideIndex).all Slice.isFull then
        if (slices[finalUnit]?).any Slice.isUnitStride then strideIndex else srcRank
      else srcRank

/-- `right_padded_stride_index`. -/
def rightPaddedStrideIndex (subRank : ℕ) (slices : List Slice) : ℕ :=
  let srcRank := slices.length
  if subRank < 2 ∨ srcRank < 2 then srcRank
  else if ¬(slices[srcRank - 1]?).any Slice.isUnitStride then srcRank
  else
    -- The loop goes down from the last slice but one.
    let steps := (slices.take (srcRank - 1)).reverse.findIdx Slice.isUnitStride
    if steps = srcRank - 1 then srcRank
    else
      let strideIndex := srcRank - 2 - steps
      if subRank - 2 > strideIndex then srcRank
      else
        let finalUnit := strideIndex - (subRank - 2)
        if ((slices.take (strideIndex + 1)).drop (finalUnit + 1)).all Slice.isFull then
          if (slices[finalUnit]?).any Slice.isUnitStride then strideIndex else srcRank
        else srcRank

/-! ## submdspan_mapping -/

/-- `submdspan_mapping_result`. -/
structure MappingResult where
  mapping : Mapping
  offset : ℕ
  deriving DecidableEq, Repr

/-- `build_sub_strides`. -/
def buildSubStrides (src : Mapping) (invMapIdxs factors : List ℕ) : List ℕ :=
  invMapIdxs.map fun m => src.stride m * factors.getD m 0

/-- The offset that all the overloads compute for a source with a dimension. -/
def subOffset (src : Mapping) (slices : List Slice) : ℕ :=
  if anyOob src.extents slices then src.requiredSpanSize else src.apply (slices.map Slice.firstOf)

/-- The branch that all the overloads end in. -/
def stridedResult (src : Mapping) (slices : List Slice) : MappingResult :=
  { mapping := .layoutStride (subextents src.extents slices)
      (buildSubStrides src (invMapRank 0 [] slices) (makeStrideFactors slices)),
    offset := subOffset src slices }

def submdspanMappingLeft (extents : List ℕ) (slices : List Slice) : MappingResult :=
  let src := Mapping.layoutLeft extents
  let subExt := subextents extents slices
  let sr := extents.length
  let dr := subExt.length
  if sr = 0 then { mapping := .layoutLeft subExt, offset := 0 }
  else if dr = 0 then { mapping := .layoutLeft subExt, offset := subOffset src slices }
  else if llPreserving dr slices then
    { mapping := .layoutLeft subExt, offset := subOffset src slices }
  else if leftPaddedStrideIndex dr slices ≠ sr then
    { mapping := .makeLeftPadded subExt (src.stride (leftPaddedStrideIndex dr slices)),
      offset := subOffset src slices }
  else stridedResult src slices

def submdspanMappingRight (extents : List ℕ) (slices : List Slice) : MappingResult :=
  let src := Mapping.layoutRight extents
  let subExt := subextents extents slices
  let sr := extents.length
  let dr := subExt.length
  if sr = 0 then { mapping := .layoutRight subExt, offset := 0 }
  else if dr = 0 then { mapping := .layoutRight subExt, offset := subOffset src slices }
  else if lrPreserving dr slices then
    { mapping := .layoutRight subExt, offset := subOffset src slices }
  else if rightPaddedStrideIndex dr slices ≠ sr then
    { mapping := .makeRightPadded subExt (src.stride (rightPaddedStrideIndex dr slices)),
      offset := subOffset src slices }
  else stridedResult src slices

def submdspanMappingStride (extents strides : List ℕ) (slices : List Slice) : MappingResult :=
  let src := Mapping.layoutStride extents strides
  if extents.length = 0 then
    { mapping := .layoutStride (subextents extents slices) [], offset := 0 }
  else stridedResult src slices

def submdspanMappingLeftPadded (extents : List ℕ) (stride1 : ℕ) (slices : List Slice) :
    MappingResult :=
  let src := Mapping.layoutLeftPadded extents stride1
  let subExt := subextents extents slices
  let sr := extents.length
  let dr := subExt.length
  if sr = 0 then { mapping := src, offset := 0 }
  else if dr = 0 then { mapping := .layoutLeft subExt, offset := subOffset src slices }
  else if dr = 1 ∧ (slices[0]?).any Slice.isUnitStride then
    { mapping := .layoutLeft subExt, offset := subOffset src slices }
  else if leftPaddedStrideIndex dr slices ≠ sr then
    { mapping := .makeLeftPadded subExt (src.stride (leftPaddedStrideIndex dr slices)),
      offset := subOffset src slices }
  else stridedResult src slices

def submdspanMappingRightPadded (extents : List ℕ) (strideRm2 : ℕ) (slices : List Slice) :
    MappingResult :=
  let src := Mapping.layoutRightPadded extents strideRm2
  let subExt := subextents extents slices
  let sr := extents.length
  let dr := subExt.length
  if sr = 0 then { mapping := src, offset := 0 }
  else if dr = 0 then { mapping := .layoutRight subExt, offset := subOffset src slices }
  else if dr = 1 ∧ (slices[sr - 1]?).any Slice.isUnitStride then
    { mapping := .layoutRight subExt, offset := subOffset src slices }
  else if rightPaddedStrideIndex dr slices ≠ sr then
    { mapping := .makeRightPadded subExt (src.stride (rightPaddedStrideIndex dr slices)),
      offset := subOffset src slices }
  else stridedResult src slices

def submdspanMapping (src : Mapping) (slices : List Slice) : MappingResult :=
  match src with
  | .layoutLeft extents => submdspanMappingLeft extents slices
  | .layoutRight extents => submdspanMappingRight extents slices
  | .layoutStride extents strides => submdspanMappingStride extents strides slices
  | .layoutLeftPadded extents stride1 => submdspanMappingLeftPadded extents stride1 slices
  | .layoutRightPadded extents strideRm2 => submdspanMappingRightPadded extents strideRm2 slices

/-! ## What is selected -/

/-- The extents of the selection: those of the slices that keep their dimension. -/
def selectedExtents : List ℕ → List Slice → List ℕ
  | extent :: extents, .full :: slices => extent :: selectedExtents extents slices
  | _ :: extents, .index _ :: slices => selectedExtents extents slices
  | _ :: extents, .extentSlice _ sub _ _ :: slices => sub :: selectedExtents extents slices
  | _, _ => []

/-- The index in the source of the index `j` in the selection. -/
def select : List Slice → List ℕ → List ℕ
  | .index i :: slices, js => i :: select slices js
  | .full :: slices, j :: js => j :: select slices js
  | .extentSlice offset _ stride _ :: slices, j :: js => (offset + j * stride) :: select slices js
  | _, _ => []

end CCForge.Submdspan
