import CCForge.Linalg.IndexType
import CCForge.Submdspan.Mirror

/-!
# layout_left_padded and layout_right_padded

The mappings of the two padded layouts as the index type computes them. Where the padded
product of the extents is representable, each value is that of the exact mapping.
-/

namespace CCForge.Submdspan

open CCForge.Linalg (IndexType)
open CCForge.Strided

/-- `layout_left_padded` pads the first dimension and `layout_right_padded` the last. -/
inductive Side where
  | left
  | right
  deriving DecidableEq, Repr

/-- `least_multiple_at_least` in the arithmetic of the index type. -/
def machineLeastMultiple (T : IndexType) (alignment value : ℤ) : Option ℤ :=
  if alignment = 0 then some value
  else if value = 0 then some 0
  else do
    let remainder ← T.promoted.rem value alignment
    if T.convert remainder = 0 then return value
    else
      let gap ← T.promoted.sub alignment (T.convert remainder)
      let sum ← T.promoted.add value gap
      return T.convert sum

/-- A mapping of a padded layout. `paddingStride` is `stride_1_` or `stride_rm2_`. -/
structure PaddedMapping where
  side : Side
  indexType : IndexType
  extents : List ℕ
  paddingStride : ℤ
  deriving DecidableEq, Repr

/-- The extent of the padded dimension. -/
def paddedExtent (side : Side) (extents : List ℕ) : ℕ :=
  match side with
  | .left => extents.getD 0 0
  | .right => extents.getD (extents.length - 1) 0

namespace PaddedMapping

/-- `make_stride`, in the constructors for more than one dimension. -/
def makeStride (side : Side) (T : IndexType) (extents : List ℕ) (padding : ℕ) : Option ℤ :=
  machineLeastMultiple T (T.convert padding) (T.convert (paddedExtent side extents))

/-- The constructors from extents, without and with a padding. A padding value is absent where it
is `dynamic_extent`. -/
def make (side : Side) (T : IndexType) (paddingValue : Option ℕ) (extents : List ℕ)
    (padding : Option ℕ) : Option PaddedMapping := do
  let paddingStride ←
    if extents.length > 1 then
      match padding, paddingValue with
      | some padding, _ => makeStride side T extents padding
      | none, some paddingValue => makeStride side T extents paddingValue
      | none, none => some (T.convert (paddedExtent side extents))
    else some 1
  return ⟨side, T, extents, paddingStride⟩

/-- The loop of `stride`. -/
def strideLoop (T : IndexType) : List ℕ → ℤ → Option ℤ
  | [], result => some result
  | extent :: extents, result => do
    let product ← T.promoted.mul result (T.convert extent)
    strideLoop T extents (T.convert product)

def stride (m : PaddedMapping) (r : ℕ) : Option ℤ :=
  let rank := m.extents.length
  match m.side with
  | .left =>
    if rank = 0 then some 1
    else if r = 0 then some 1
    else if r = 1 then some m.paddingStride
    else strideLoop m.indexType ((m.extents.take r).drop 1) m.paddingStride
  | .right =>
    if rank = 0 then some 1
    else if r + 1 = rank then some 1
    else if r + 2 = rank then some m.paddingStride
    else strideLoop m.indexType ((m.extents.take (rank - 1)).drop (r + 1)) m.paddingStride

/-- `result += index * stride(r)`. -/
def accumulate (m : PaddedMapping) (r : ℕ) (index result : ℤ) : Option ℤ := do
  let stride ← m.stride r
  let product ← m.indexType.promoted.mul index stride
  let sum ← m.indexType.promoted.add result product
  return m.indexType.convert sum

/-- The loop of `required_span_size`. -/
def spanFrom (m : PaddedMapping) : ℕ → List ℕ → ℤ → Option ℤ
  | _, [], result => some result
  | r, extent :: extents, result => do
    let last ← m.indexType.promoted.sub extent 1
    let sum ← m.accumulate r (m.indexType.convert last) result
    m.spanFrom (r + 1) extents sum

def requiredSpanSize (m : PaddedMapping) : Option ℤ :=
  if 0 ∈ m.extents then some 0
  else do
    let result ← m.spanFrom 0 m.extents 0
    let sum ← m.indexType.promoted.add result 1
    return m.indexType.convert sum

/-- The fold of `operator()`. -/
def callFrom (m : PaddedMapping) : ℕ → List ℕ → ℤ → Option ℤ
  | _, [], result => some result
  | r, index :: idxs, result => do
    let sum ← m.accumulate r (m.indexType.convert index) result
    m.callFrom (r + 1) idxs sum

/-- `operator()`. -/
def call (m : PaddedMapping) (idxs : List ℕ) : Option ℤ := m.callFrom 0 idxs 0

/-- The strides of `operator layout_stride::mapping` for extents with the given index type. -/
def toStrides (m : PaddedMapping) (other : IndexType) : Option (List ℤ) :=
  (List.range m.extents.length).mapM fun r => (m.stride r).map other.convert

/-- The constructor from a `layout_stride::mapping`. -/
def ofStrides (side : Side) (T : IndexType) (extents : List ℕ) (strides : List ℤ) : PaddedMapping :=
  let r :=
    match side with
    | .left => 1
    | .right => extents.length - 2
  ⟨side, T, extents, if extents.length > 1 then T.convert (strides.getD r 0) else 1⟩

end PaddedMapping

/-! ## The exact mapping -/

/-- The padding that a constructor rounds up to, zero where there is none. -/
def givenPadding (paddingValue padding : Option ℕ) : ℕ := (padding <|> paddingValue).getD 0

/-- The mapping with the exact padding stride. -/
def exactPadded (side : Side) (extents : List ℕ) (padding : ℕ) : Mapping :=
  match side with
  | .left => .makeLeftPadded extents padding
  | .right => .makeRightPadded extents padding

/-- The product of the extents with the padded one rounded up. -/
def paddedProduct (side : Side) (extents : List ℕ) (padding : ℕ) : ℕ :=
  if extents.length ≤ 1 then extents.prod
  else
    leastMultipleAtLeast padding (paddedExtent side extents) *
      match side with
      | .left => (extents.drop 1).prod
      | .right => (extents.take (extents.length - 1)).prod

/-- The index type has the extents and their padded product. Where the product is zero it also has
to have the padding stride. -/
structure Representable (side : Side) (T : IndexType) (extents : List ℕ) (padding : ℕ) : Prop where
  held : ∀ extent ∈ extents, extent ≤ T.max
  product : paddedProduct side extents padding ≤ T.max
  stride : 1 < extents.length → leastMultipleAtLeast padding (paddedExtent side extents) ≤ T.max

end CCForge.Submdspan
