import CCForge.Linalg.Packed
import CCForge.Submdspan.Layouts

/-!
# transposed

`transposed` views a matrix with its indices swapped. Each layout has its own rule for the
layout of the view; a layout without one is wrapped in `layout_transpose`, which is unwrapped
again. The offsets of the strided layouts are exact, as in the mappings of `submdspan`.
-/

namespace CCForge.Linalg

open CCForge.Submdspan (leastMultipleAtLeast leastMultipleAtLeast_eq le_leastMultipleAtLeast)

/-- A layout policy. A padding value is absent where it is `dynamic_extent`. -/
inductive Layout where
  | layoutLeft
  | layoutRight
  | layoutLeftPadded (paddingValue : Option ℕ)
  | layoutRightPadded (paddingValue : Option ℕ)
  | layoutStride
  | layoutBlasPacked (triangle : Triangle) (storageOrder : StorageOrder)
  | layoutTranspose (nested : Layout)
  | other (name : String)
  deriving DecidableEq, Repr

/-- `__transpose_mapping_kind`. -/
inductive TransposeMappingKind where
  | wrapped
  | direct
  | leftPadded
  | rightPadded
  | strided
  | nested
  deriving DecidableEq, Repr

def StorageOrder.other : StorageOrder → StorageOrder
  | .columnMajor => .rowMajor
  | .rowMajor => .columnMajor

namespace Layout

/-- `__transpose_layout::kind`. -/
def kind : Layout → TransposeMappingKind
  | layoutLeft => .direct
  | layoutRight => .direct
  | layoutLeftPadded _ => .leftPadded
  | layoutRightPadded _ => .rightPadded
  | layoutStride => .strided
  | layoutBlasPacked _ _ => .direct
  | layoutTranspose _ => .nested
  | other _ => .wrapped

/-- `__transpose_layout::type`. -/
def transposed : Layout → Layout
  | layoutLeft => layoutRight
  | layoutRight => layoutLeft
  | layoutLeftPadded paddingValue => layoutRightPadded paddingValue
  | layoutRightPadded paddingValue => layoutLeftPadded paddingValue
  | layoutStride => layoutStride
  | layoutBlasPacked triangle storageOrder => layoutBlasPacked triangle.other storageOrder.other
  | layoutTranspose nested => nested
  | other name => layoutTranspose (other name)

/-- Two transpositions give the layout back: it is not `layout_transpose`, or what it wraps has
no rule of its own. -/
def Restored : Layout → Prop
  | layoutTranspose nested => nested.kind = .wrapped
  | _ => True

theorem transposed_transposed {L : Layout} (h : L.Restored) : L.transposed.transposed = L := by
  cases L with
  | layoutBlasPacked triangle storageOrder => cases triangle <;> cases storageOrder <;> rfl
  | layoutTranspose nested =>
    cases nested with
    | other name => rfl
    | _ => cases h
  | _ => rfl

end Layout

/-- A mapping of a layout that `transposed` does not know. -/
structure OtherMapping where
  name : String
  rows : ℕ
  columns : ℕ
  call : ℕ → ℕ → Option ℤ
  requiredSpanSize : Option ℤ

/-- A mapping of rank 2. -/
inductive MatrixMapping where
  | layoutLeft (rows columns : ℕ)
  | layoutRight (rows columns : ℕ)
  | layoutLeftPadded (paddingValue : Option ℕ) (rows columns stride1 : ℕ)
  | layoutRightPadded (paddingValue : Option ℕ) (rows columns stride0 : ℕ)
  | layoutStride (rows columns stride0 stride1 : ℕ)
  | layoutBlasPacked (m : PackedMapping)
  | layoutTranspose (nested : MatrixMapping) (rows columns : ℕ)
  | other (m : OtherMapping)

namespace PackedMapping

/-- The mapping with the opposite triangle and storage order of the same extents. -/
def opposite (m : PackedMapping) : PackedMapping :=
  { m with triangle := m.triangle.other, storageOrder := m.storageOrder.other }

end PackedMapping

namespace PackedMapping

variable {m : PackedMapping} {i j : ℕ}

theorem opposite_stored : m.opposite.Stored j i ↔ m.Stored i j := by
  simp only [Stored, opposite, contains_other]
  tauto

/-- The formulas of the opposite triangle and order are the same with the indices swapped. -/
theorem opposite_exact (m : PackedMapping) (i j : ℤ) : m.opposite.exact j i = m.exact i j := by
  have hrows : ∀ k : ℤ, k * (k + 1) / 2 = k * (k - 1) / 2 + k := by
    intro k
    have hk : k * (k + 1) = k * (k - 1) + 2 * k := by ring
    omega
  unfold exact opposite
  cases ho : m.storageOrder <;> cases ht : m.triangle <;>
    simp only [StorageOrder.other, Triangle.other]
  · have hj := hrows j
    have hmul := mul_comm (m.extent : ℤ) j
    omega
  · have hi := hrows i
    have hmul := mul_comm (m.extent : ℤ) i
    omega

theorem opposite_call (hi : i < m.extent) (hj : j < m.extent) :
    m.opposite.call j i = m.call i j := by
  by_cases hs : m.Stored i j
  · rw [(opposite_stored.mpr hs).call_eq, hs.call_eq, opposite_exact]
  -- an element that is not stored is the one with the indices the other way round
  · have hs' : m.Stored j i := ⟨hj, hi, contains_swap fun hc => hs ⟨hi, hj, hc⟩⟩
    rw [call_comm, (opposite_stored.mpr hs').call_eq, call_comm, hs'.call_eq, opposite_exact]

end PackedMapping

namespace MatrixMapping

open Submdspan (Mapping)

def layout : MatrixMapping → Layout
  | layoutLeft _ _ => .layoutLeft
  | layoutRight _ _ => .layoutRight
  | layoutLeftPadded paddingValue _ _ _ => .layoutLeftPadded paddingValue
  | layoutRightPadded paddingValue _ _ _ => .layoutRightPadded paddingValue
  | layoutStride _ _ _ _ => .layoutStride
  | layoutBlasPacked m => .layoutBlasPacked m.triangle m.storageOrder
  | layoutTranspose nested _ _ => .layoutTranspose nested.layout
  | other m => .other m.name

def extents : MatrixMapping → ℕ × ℕ
  | layoutLeft rows columns => (rows, columns)
  | layoutRight rows columns => (rows, columns)
  | layoutLeftPadded _ rows columns _ => (rows, columns)
  | layoutRightPadded _ rows columns _ => (rows, columns)
  | layoutStride rows columns _ _ => (rows, columns)
  | layoutBlasPacked m => (m.extent, m.extent)
  | layoutTranspose _ rows columns => (rows, columns)
  | other m => (m.rows, m.columns)

/-- `operator()`. -/
def call : MatrixMapping → ℕ → ℕ → Option ℤ
  | layoutLeft rows columns, i, j => some ((Mapping.layoutLeft [rows, columns]).apply [i, j] : ℕ)
  | layoutRight rows columns, i, j => some ((Mapping.layoutRight [rows, columns]).apply [i, j] : ℕ)
  | layoutLeftPadded _ rows columns stride1, i, j =>
    some ((Mapping.layoutLeftPadded [rows, columns] stride1).apply [i, j] : ℕ)
  | layoutRightPadded _ rows columns stride0, i, j =>
    some ((Mapping.layoutRightPadded [rows, columns] stride0).apply [i, j] : ℕ)
  | layoutStride rows columns stride0 stride1, i, j =>
    some ((Mapping.layoutStride [rows, columns] [stride0, stride1]).apply [i, j] : ℕ)
  | layoutBlasPacked m, i, j => m.call i j
  | layoutTranspose nested _ _, i, j => nested.call j i
  | other m, i, j => m.call i j

def requiredSpanSize : MatrixMapping → Option ℤ
  | layoutLeft rows columns => some ((Mapping.layoutLeft [rows, columns]).requiredSpanSize : ℕ)
  | layoutRight rows columns => some ((Mapping.layoutRight [rows, columns]).requiredSpanSize : ℕ)
  | layoutLeftPadded _ rows columns stride1 =>
    some ((Mapping.layoutLeftPadded [rows, columns] stride1).requiredSpanSize : ℕ)
  | layoutRightPadded _ rows columns stride0 =>
    some ((Mapping.layoutRightPadded [rows, columns] stride0).requiredSpanSize : ℕ)
  | layoutStride rows columns stride0 stride1 =>
    some ((Mapping.layoutStride [rows, columns] [stride0, stride1]).requiredSpanSize : ℕ)
  | layoutBlasPacked m => m.requiredSpanSize
  | layoutTranspose nested _ _ => nested.requiredSpanSize
  | other m => m.requiredSpanSize

/-- What each mapping object has: a padding stride keeps the elements apart, and a
`layout_transpose` has the extents of its nested mapping the other way round. -/
def Valid : MatrixMapping → Prop
  | layoutLeftPadded _ rows columns stride1 => Mapping.PaddingFits rows [columns] stride1
  | layoutRightPadded _ rows columns stride0 => Mapping.PaddingFits columns [rows] stride0
  | layoutTranspose nested rows columns => nested.Valid ∧ nested.extents = (columns, rows)
  | _ => True

/-- The mapping that `transposed` makes. -/
def transposed : MatrixMapping → MatrixMapping
  | layoutLeft rows columns => layoutRight columns rows
  | layoutRight rows columns => layoutLeft columns rows
  | layoutLeftPadded paddingValue rows columns stride1 =>
    layoutRightPadded paddingValue columns rows (leastMultipleAtLeast stride1 rows)
  | layoutRightPadded paddingValue rows columns stride0 =>
    layoutLeftPadded paddingValue columns rows (leastMultipleAtLeast stride0 columns)
  | layoutStride rows columns stride0 stride1 => layoutStride columns rows stride1 stride0
  | layoutBlasPacked m => layoutBlasPacked m.opposite
  | layoutTranspose nested _ _ => nested
  | other m => layoutTranspose (other m) m.columns m.rows

variable {m : MatrixMapping} {i j rows columns stride : ℕ}

/-! ## The padded layouts -/

/-- Rounding up changes a padding stride only where no second index uses it. -/
theorem mul_leastMultipleAtLeast (hf : Mapping.PaddingFits rows [columns] stride) (hi : i < rows)
    (hj : j < columns) : j * leastMultipleAtLeast stride rows = j * stride := by
  -- a stride that is too short belongs to a matrix without elements or with one column
  rcases hf with hle | hzero | hone
  · rw [leastMultipleAtLeast_eq (by omega) hle]
  · simp only [List.mem_cons, List.not_mem_nil, or_false] at hzero
    omega
  · have hc := hone columns (by simp)
    have hj0 : j = 0 := by omega
    rw [hj0, Nat.zero_mul, Nat.zero_mul]

theorem paddingFits_leastMultipleAtLeast :
    Mapping.PaddingFits rows [columns] (leastMultipleAtLeast stride rows) :=
  .inl (le_leastMultipleAtLeast stride rows)

theorem span_padded (rows columns stride : ℕ) :
    (Mapping.layoutLeftPadded [rows, columns] stride).requiredSpanSize =
      if rows = 0 ∨ columns = 0 then 0 else rows - 1 + (columns - 1) * stride + 1 := by
  simp [Mapping.requiredSpanSize, Mapping.spanOf, Mapping.sumFrom, Mapping.extents, Mapping.stride,
    Mapping.leftPaddedStride, eq_comm]

theorem span_rightPadded (rows columns stride : ℕ) :
    (Mapping.layoutRightPadded [rows, columns] stride).requiredSpanSize =
      if rows = 0 ∨ columns = 0 then 0 else (rows - 1) * stride + (columns - 1) + 1 := by
  simp [Mapping.requiredSpanSize, Mapping.spanOf, Mapping.sumFrom, Mapping.extents, Mapping.stride,
    Mapping.rightPaddedStride, eq_comm]

/-! ## The rules -/

theorem layout_transposed (m : MatrixMapping) : m.transposed.layout = m.layout.transposed := by
  cases m <;> rfl

theorem extents_transposed (h : m.Valid) : m.transposed.extents = m.extents.swap := by
  cases m with
  | layoutTranspose nested rows columns => exact h.2
  | _ => rfl

theorem Valid.transposed (h : m.Valid) : m.transposed.Valid := by
  cases m with
  | layoutLeftPadded paddingValue rows columns stride1 => exact paddingFits_leastMultipleAtLeast
  | layoutRightPadded paddingValue rows columns stride0 => exact paddingFits_leastMultipleAtLeast
  | layoutTranspose nested rows columns => exact h.1
  | other m => exact ⟨trivial, rfl⟩
  | _ => exact trivial

theorem call_transposed (h : m.Valid) (hi : i < m.extents.1) (hj : j < m.extents.2) :
    m.transposed.call j i = m.call i j := by
  cases m with
  | layoutLeft rows columns =>
    simp [MatrixMapping.transposed, call, Mapping.apply, Mapping.sumFrom, Mapping.stride]
    ring
  | layoutRight rows columns =>
    simp [MatrixMapping.transposed, call, Mapping.apply, Mapping.sumFrom, Mapping.stride]
    ring
  | layoutLeftPadded paddingValue rows columns stride1 =>
    -- the two strides differ only where there is no second column
    have hmul := mul_leastMultipleAtLeast h hi hj
    simp [MatrixMapping.transposed, call, Mapping.apply, Mapping.sumFrom, Mapping.stride,
      Mapping.leftPaddedStride, Mapping.rightPaddedStride]
    omega
  | layoutRightPadded paddingValue rows columns stride0 =>
    have hmul := mul_leastMultipleAtLeast h hj hi
    simp [MatrixMapping.transposed, call, Mapping.apply, Mapping.sumFrom, Mapping.stride,
      Mapping.leftPaddedStride, Mapping.rightPaddedStride]
    omega
  | layoutStride rows columns stride0 stride1 =>
    simp [MatrixMapping.transposed, call, Mapping.apply, Mapping.sumFrom, Mapping.stride]
    ring
  | layoutBlasPacked m => exact PackedMapping.opposite_call hi hj
  | layoutTranspose nested rows columns => rfl
  | other m => rfl

theorem requiredSpanSize_transposed (h : m.Valid) :
    m.transposed.requiredSpanSize = m.requiredSpanSize := by
  cases m with
  | layoutLeft rows columns =>
    simp [MatrixMapping.transposed, requiredSpanSize, Mapping.requiredSpanSize, mul_comm]
  | layoutRight rows columns =>
    simp [MatrixMapping.transposed, requiredSpanSize, Mapping.requiredSpanSize, mul_comm]
  | layoutLeftPadded paddingValue rows columns stride1 =>
    simp only [MatrixMapping.transposed, requiredSpanSize, span_padded, span_rightPadded]
    by_cases hzero : rows = 0 ∨ columns = 0
    · rw [if_pos hzero, if_pos hzero.symm]
    · rw [if_neg hzero, if_neg fun hz => hzero hz.symm]
      -- the span ends behind the last column
      have hmul := mul_leastMultipleAtLeast (i := 0) (j := columns - 1) h (by omega) (by omega)
      rw [hmul]
      congr 2
      omega
  | layoutRightPadded paddingValue rows columns stride0 =>
    simp only [MatrixMapping.transposed, requiredSpanSize, span_padded, span_rightPadded]
    by_cases hzero : rows = 0 ∨ columns = 0
    · rw [if_pos hzero, if_pos hzero.symm]
    · rw [if_neg hzero, if_neg fun hz => hzero hz.symm]
      -- the span ends behind the last row
      have hmul := mul_leastMultipleAtLeast (i := 0) (j := rows - 1) h (by omega) (by omega)
      rw [hmul]
      congr 2
      omega
  | layoutStride rows columns stride0 stride1 =>
    simp [MatrixMapping.transposed, requiredSpanSize, Mapping.requiredSpanSize, Mapping.spanOf,
      Mapping.sumFrom, Mapping.extents, Mapping.stride, or_comm, add_comm]
  | layoutBlasPacked m => rfl
  | layoutTranspose nested rows columns => rfl
  | other m => rfl

end MatrixMapping

/-! ## Views -/

/-- An `mdspan` of rank 2. -/
structure MatrixView (P A : Type) where
  dataHandle : P
  mapping : MatrixMapping
  accessor : A

namespace MatrixView

variable {P A E : Type}

/-- `transposed`. -/
def transposed (x : MatrixView P A) : MatrixView P A :=
  { dataHandle := x.dataHandle, mapping := x.mapping.transposed, accessor := x.accessor }

/-- The element that `x[i, j]` reaches, for the `access` of the accessor. -/
def element (access : A → P → ℤ → E) (x : MatrixView P A) (i j : ℕ) : Option E :=
  (x.mapping.call i j).map (access x.accessor x.dataHandle)

/-- What a transposition promises. -/
structure Swapped (x y : MatrixView P A) : Prop where
  offset : ∀ i < x.mapping.extents.1, ∀ j < x.mapping.extents.2, y.mapping.call j i = x.mapping.call i j
  element : ∀ (E : Type) (access : A → P → ℤ → E), ∀ i < x.mapping.extents.1,
    ∀ j < x.mapping.extents.2, y.element access j i = x.element access i j
  extents : y.mapping.extents = x.mapping.extents.swap
  span : y.mapping.requiredSpanSize = x.mapping.requiredSpanSize
  layout : y.mapping.layout = x.mapping.layout.transposed

theorem transposed_swapped {x : MatrixView P A} (h : x.mapping.Valid) : Swapped x x.transposed where
  offset _ hi _ hj := MatrixMapping.call_transposed h hi hj
  element E access i hi j hj := by
    have hcall : x.transposed.mapping.call j i = x.mapping.call i j :=
      MatrixMapping.call_transposed h hi hj
    unfold MatrixView.element
    rw [hcall]
    rfl
  extents := MatrixMapping.extents_transposed h
  span := MatrixMapping.requiredSpanSize_transposed h
  layout := x.mapping.layout_transposed

/-- `transposed` swaps the indices. A second `transposed` reaches the same offsets again, and
has the same layout unless a `layout_transpose` was unwrapped to a layout with a rule. -/
theorem transposed_involution (x : MatrixView P A) (h : x.mapping.Valid) :
    Swapped x x.transposed ∧ Swapped x.transposed x.transposed.transposed ∧
      x.transposed.transposed.mapping.extents = x.mapping.extents ∧
      (∀ i < x.mapping.extents.1, ∀ j < x.mapping.extents.2,
        x.transposed.transposed.mapping.call i j = x.mapping.call i j) ∧
      x.transposed.transposed.mapping.layout = x.mapping.layout.transposed.transposed ∧
      (x.mapping.layout.Restored → x.transposed.transposed.mapping.layout = x.mapping.layout) := by
  have hfirst : Swapped x x.transposed := transposed_swapped h
  have hsecond : Swapped x.transposed x.transposed.transposed := transposed_swapped h.transposed
  have hlayout : x.transposed.transposed.mapping.layout = x.mapping.layout.transposed.transposed := by
    rw [hsecond.layout, hfirst.layout]
  refine ⟨hfirst, hsecond, ?_, fun i hi j hj => ?_, hlayout, fun hr => ?_⟩
  · rw [hsecond.extents, hfirst.extents, Prod.swap_swap]
  · rw [hsecond.offset j (by rw [hfirst.extents]; exact hj) i (by rw [hfirst.extents]; exact hi),
      hfirst.offset i hi j hj]
  · rw [hlayout, Layout.transposed_transposed hr]

/-- A 2 by 3 view of a padded matrix. -/
theorem transposed_involution_padded :
    MatrixMapping.Valid (.layoutLeftPadded none 2 3 4) ∧
      ∀ i < 2, ∀ j < 3, (MatrixMapping.layoutLeftPadded none 2 3 4).transposed.transposed.call i j =
        (MatrixMapping.layoutLeftPadded none 2 3 4).call i j :=
  have hv : MatrixMapping.Valid (.layoutLeftPadded none 2 3 4) := .inl (by decide)
  ⟨hv, (transposed_involution ⟨(), .layoutLeftPadded none 2 3 4, ()⟩ hv).2.2.2.1⟩

/-- A `layout_transpose` of `layout_left` comes back as `layout_right`. -/
theorem transposed_unwraps :
    ∃ x : MatrixView Unit Unit, x.mapping.Valid ∧ x.mapping.layout = .layoutTranspose .layoutLeft ∧
      x.transposed.transposed.mapping.layout = .layoutRight ∧
      x.transposed.transposed.mapping.layout.kind ≠ x.mapping.layout.kind :=
  ⟨⟨(), .layoutTranspose (.layoutLeft 3 2) 2 3, ()⟩, ⟨trivial, rfl⟩, rfl, rfl, by decide⟩

end MatrixView

end CCForge.Linalg
