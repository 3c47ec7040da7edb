import CCForge.Linalg.IndexType
import CCForge.Submdspan.Model

/-!
# Canonical slices

`canonical_slice` turns every kind of slice into one of three. A number of a slice is either a
run-time value or a compile time constant in a wrapper, and the two take different branches.
-/

namespace CCForge.Submdspan

open CCForge.Linalg (IndexType)

/-- Why there is no result. -/
inductive Failure where
  /-- A `static_assert` or a constraint does not hold. -/
  | illFormed
  /-- Overflow, or a division by zero. -/
  | undefined
  deriving DecidableEq, Repr

/-- A number of a slice, in a `constant_wrapper` where `isStatic`. -/
structure Component where
  value : ℤ
  isStatic : Bool
  deriving DecidableEq, Repr

/-- A slice as a caller writes it. -/
inductive RawSlice where
  | full
  | index (i : Component)
  | extentSlice (offset extent stride : Component)
  | rangeSlice (first last stride : Component)
  /-- A `pair`, `tuple`, `array` or `complex` of two, or what a structured binding splits in two. -/
  | pairLike (first last : Component)
  deriving DecidableEq, Repr

/-- A result of `canonical_slice`. -/
inductive CanonicalSlice where
  | full
  | index (i : Component)
  | extentSlice (offset extent stride : Component)
  deriving DecidableEq, Repr

/-- A canonical slice is one that a caller may write. -/
def CanonicalSlice.raw : CanonicalSlice → RawSlice
  | full => .full
  | index i => .index i
  | extentSlice offset extent stride => .extentSlice offset extent stride

/-! ## canonical_slice -/

/-- A value that the behaviour of the program defines. -/
def defined {α : Type} : Option α → Except Failure α
  | some a => .ok a
  | none => .error .undefined

def canonicalIndex (T : IndexType) (c : Component) : Except Failure Component :=
  if c.isStatic then
    if T.Holds c.value then .ok c else .error .illFormed
  else .ok ⟨T.convert c.value, false⟩

/-- `c_last - c_first`. -/
def difference (T : IndexType) (last first : Component) : Except Failure Component := do
  let span ← defined (T.promoted.sub last.value first.value)
  return ⟨span, last.isStatic && first.isStatic⟩

/-- The lambda for `c_stride`. -/
def canonicalStride (T : IndexType) (span : Component) (stride : Option Component) :
    Except Failure Component :=
  match stride with
  | none => .ok ⟨T.convert 1, true⟩
  | some stride =>
    if span.isStatic ∧ span.value = 0 then .ok ⟨T.convert 1, true⟩
    else do
      let stride ← canonicalIndex T stride
      if stride.isStatic then return stride
      else return ⟨if span.value = 0 then T.convert 1 else stride.value, false⟩

/-- Division. There is no value for the divisor zero. -/
def quotient (T : IndexType) (x y : ℤ) : Option ℤ := if y = 0 then none else T.div x y

/-- `extent_v`. -/
def canonicalExtent (T : IndexType) (span stride : ℤ) : Except Failure ℤ :=
  if span = 0 then .ok 0
  else do
    let last ← defined (T.promoted.sub span (T.convert 1))
    let steps ← defined (quotient T.promoted last stride)
    let extent ← defined (T.promoted.add (T.convert 1) steps)
    return T.convert extent

def canonicalRangeSlice (T : IndexType) (offset span : Component) (stride : Option Component) :
    Except Failure CanonicalSlice := do
  let offset ← canonicalIndex T offset
  let span ← canonicalIndex T span
  let stride ← canonicalStride T span stride
  if stride.isStatic ∧ stride.value ≤ 0 then .error .illFormed
  else
    let extent ← canonicalExtent T span.value stride.value
    return .extentSlice offset ⟨extent, span.isStatic && stride.isStatic⟩ stride

def canonicalSlice (T : IndexType) : RawSlice → Except Failure CanonicalSlice
  | .full => .ok .full
  | .index i => return .index (← canonicalIndex T i)
  | .extentSlice offset extent stride =>
    return .extentSlice (← canonicalIndex T offset) (← canonicalIndex T extent)
      (← canonicalIndex T stride)
  | .rangeSlice first last stride => do
    let first ← canonicalIndex T first
    let last ← canonicalIndex T last
    let stride ← canonicalIndex T stride
    canonicalRangeSlice T first (← difference T last first) (some stride)
  | .pairLike first last => do
    let first ← canonicalIndex T first
    let last ← canonicalIndex T last
    canonicalRangeSlice T first (← difference T last first) none

def canonicalSlices (T : IndexType) (slices : List RawSlice) : Except Failure (List CanonicalSlice) :=
  slices.mapM (canonicalSlice T)

/-! ## subextents -/

/-- `is_canonical_index_slice_v`, with the range of the index type. -/
def Component.IsCanonical (T : IndexType) (c : Component) : Prop :=
  T.Holds c.value ∧ (c.isStatic = true → 0 ≤ c.value)

instance (T : IndexType) (c : Component) : Decidable (c.IsCanonical T) :=
  inferInstanceAs (Decidable (_ ∧ _))

/-- `is_canonical_slice_v`. -/
def CanonicalSlice.IsCanonical (T : IndexType) : CanonicalSlice → Prop
  | full => True
  | index i => i.IsCanonical T
  | extentSlice offset extent stride =>
    offset.IsCanonical T ∧ extent.IsCanonical T ∧ stride.IsCanonical T ∧
      -- `has_valid_static_stride`
      (extent.isStatic = true → stride.isStatic = true → 0 < stride.value)

instance (T : IndexType) (c : CanonicalSlice) : Decidable (c.IsCanonical T) := by
  cases c <;> unfold CanonicalSlice.IsCanonical <;> infer_instance

/-- `static_index_or`. -/
def Component.staticOr (fallback : ℤ) (c : Component) : ℤ := if c.isStatic then c.value else fallback

/-- `is_valid_static_slice_type` for a dimension of the source. -/
def CanonicalSlice.FitsStatic (source : Component) (slice : CanonicalSlice) : Prop :=
  if source.isStatic then
    match slice with
    | full => True
    | index i => i.isStatic = true → i.value < source.value
    | extentSlice offset extent stride =>
      let x := source.value
      let offset := offset.staticOr 0
      let extent := extent.staticOr 0
      let stride := stride.staticOr 1
      if offset > x ∨ extent > x then False
      else if extent = 0 then True
      else if offset ≥ x then False
      else if extent = 1 then True
      else if stride = 0 then False
      else extent - 1 ≤ (x - offset - 1) / stride
  else True

instance (source : Component) (slice : CanonicalSlice) : Decidable (slice.FitsStatic source) := by
  cases slice <;> unfold CanonicalSlice.FitsStatic <;> infer_instance

/-- One dimension of `EB`: the extent of the result where the slice keeps the dimension. -/
def keptComponent (T : IndexType) (source : Component) : CanonicalSlice → Except Failure (Option Component)
  | .full => do
    let dyn ← defined (T.promoted.sub (T.convert source.value) (T.convert 0))
    return some (if source.isStatic then source else ⟨T.convert dyn, false⟩)
  | .index _ => .ok none
  | .extentSlice _ extent _ =>
    .ok (some (if extent.isStatic then extent else ⟨T.convert extent.value, false⟩))

/-- `EB::apply`, with the extents of the result so far in `rest`. -/
def machineExtents (T : IndexType) : List Component → List CanonicalSlice → List Component →
    Except Failure (List Component)
  | source :: sources, slice :: slices, rest => do
    let kept ← keptComponent T source slice
    machineExtents T sources slices (rest ++ kept.toList)
  | _, _, rest => .ok rest

/-- `subextents` for the extents `sources`, with `has_valid_raw_slice_types_v`. -/
def rawSubextents (T : IndexType) (sources : List Component) (slices : List RawSlice) :
    Except Failure (List Component) := do
  if sources.length ≠ slices.length then .error .illFormed
  else
    let canonical ← canonicalSlices T slices
    if (∀ c ∈ canonical, c.IsCanonical T) ∧
        ∀ pair ∈ sources.zip canonical, pair.2.FitsStatic pair.1 then
      machineExtents T sources canonical []
    else .error .illFormed

/-! ## What a slice selects -/

/-- The source indices that a slice selects in a dimension, in order. -/
def RawSlice.selected (dimension : ℕ) : RawSlice → List ℤ
  | full => (List.range dimension).map fun k : ℕ => (k : ℤ)
  | index i => [i.value]
  | extentSlice offset extent stride =>
    (List.range extent.value.toNat).map fun k : ℕ => offset.value + k * stride.value
  | rangeSlice first last stride =>
    ((List.range (last.value - first.value).toNat).filter fun k : ℕ => stride.value ∣ (k : ℤ)).map
      fun k : ℕ => first.value + k
  | pairLike first last =>
    (List.range (last.value - first.value).toNat).map fun k : ℕ => first.value + k

def CanonicalSlice.selected (dimension : ℕ) (c : CanonicalSlice) : List ℤ := c.raw.selected dimension

/-- The bounds and the stride of a range. -/
def RawSlice.range : RawSlice → Option (ℤ × ℤ × ℤ)
  | rangeSlice first last stride => some (first.value, last.value, stride.value)
  | pairLike first last => some (first.value, last.value, 1)
  | _ => none

def CanonicalSlice.extent : CanonicalSlice → Option ℤ
  | extentSlice _ extent _ => some extent.value
  | _ => none

/-- The slice with run-time values only. -/
def RawSlice.dynamic : RawSlice → RawSlice
  | full => .full
  | index i => .index ⟨i.value, false⟩
  | extentSlice offset extent stride =>
    .extentSlice ⟨offset.value, false⟩ ⟨extent.value, false⟩ ⟨stride.value, false⟩
  | rangeSlice first last stride =>
    .rangeSlice ⟨first.value, false⟩ ⟨last.value, false⟩ ⟨stride.value, false⟩
  | pairLike first last => .pairLike ⟨first.value, false⟩ ⟨last.value, false⟩

/-- The index type has the values of the slice and the length of a range. A range does not run
backwards, and its stride is positive unless it is empty. -/
def RawSlice.Representable (T : IndexType) : RawSlice → Prop
  | full => True
  | index i => T.Holds i.value
  | extentSlice offset extent stride =>
    T.Holds offset.value ∧ T.Holds extent.value ∧ T.Holds stride.value
  | rangeSlice first last stride =>
    T.Holds first.value ∧ T.Holds last.value ∧ T.Holds stride.value ∧
      T.Holds (last.value - first.value) ∧ first.value ≤ last.value ∧
      (0 < stride.value ∨ first.value = last.value)
  | pairLike first last =>
    T.Holds first.value ∧ T.Holds last.value ∧ T.Holds (last.value - first.value) ∧
      first.value ≤ last.value

end CCForge.Submdspan
