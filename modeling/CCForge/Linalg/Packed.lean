import CCForge.Lib.Segments
import CCForge.Linalg.IndexType
import Mathlib.Tactic.Ring
import Mathlib.Tactic.Linarith

/-!
# layout_blas_packed

The layout stores one triangle of a square matrix without gaps, column by column or row by
row. An element outside the triangle is found at its mirror image.
-/

namespace CCForge.Linalg

open CCForge.Segments

/-- `upper_triangle_t` and `lower_triangle_t`. -/
inductive Triangle where
  | upper
  | lower
  deriving DecidableEq, Repr

/-- `column_major_t` and `row_major_t`. -/
inductive StorageOrder where
  | columnMajor
  | rowMajor
  deriving DecidableEq, Repr

/-- The entry is one of the triangle's. -/
def Triangle.Contains (t : Triangle) (i j : ℕ) : Prop :=
  match t with
  | .upper => i ≤ j
  | .lower => j ≤ i

/-- The triangle of the transposed matrix. -/
def Triangle.other : Triangle → Triangle
  | .upper => .lower
  | .lower => .upper

instance (t : Triangle) (i j : ℕ) : Decidable (t.Contains i j) :=
  match t with
  | .upper => Nat.decLe i j
  | .lower => Nat.decLe j i

section
variable {t : Triangle} {i j : ℕ}

theorem contains_upper : Triangle.upper.Contains i j ↔ i ≤ j := Iff.rfl

theorem contains_lower : Triangle.lower.Contains i j ↔ j ≤ i := Iff.rfl

theorem contains_self (t : Triangle) (i : ℕ) : t.Contains i i := by
  cases t <;> exact le_rfl

theorem contains_swap (h : ¬t.Contains i j) : t.Contains j i := by
  cases t
  · exact (not_le.mp h).le
  · exact (not_le.mp h).le

/-- An entry lies in the triangle exactly where its mirror image lies in the other one. -/
theorem contains_other : t.other.Contains j i ↔ t.Contains i j := by
  cases t <;> exact Iff.rfl

theorem eq_of_contains (h : t.Contains i j) (h' : t.Contains j i) : i = j := by
  cases t
  · exact Nat.le_antisymm h h'
  · exact Nat.le_antisymm h' h

end

/-- The largest value of `uintmax_t`, which is also `dynamic_extent`. -/
def uintmaxMax : ℕ := 2 ^ 64 - 1

/-- `__packed_static_product_representable` for the static extent `n`. -/
def packedStaticProductRepresentable (T : IndexType) (n : ℕ) : Bool :=
  n != uintmaxMax && n ≤ T.max / (n + 1)

/-- The static assertion checks exactly that `n * (n + 1)` is representable. -/
theorem packedStaticProductRepresentable_iff (T : IndexType) (n : ℕ) (hn : n < uintmaxMax) :
    packedStaticProductRepresentable T n = true ↔ n * (n + 1) ≤ T.max := by
  unfold packedStaticProductRepresentable
  rw [Bool.and_eq_true, bne_iff_ne, decide_eq_true_iff, Nat.le_div_iff_mul_le (Nat.succ_pos n)]
  exact ⟨fun h => h.2, fun h => ⟨Nat.ne_of_lt hn, h⟩⟩

/-- `layout_blas_packed<Triangle, StorageOrder>::mapping` of an extent whose product with its
successor the index type represents. -/
structure PackedMapping where
  triangle : Triangle
  storageOrder : StorageOrder
  indexType : IndexType
  extent : ℕ
  representable : extent * (extent + 1) ≤ indexType.max

namespace PackedMapping

/-- `n * (n + 1) / 2`. -/
def requiredSpanSize (m : PackedMapping) : Option ℤ := do
  let P := m.indexType.promoted
  let n : ℤ := m.extent
  let next ← P.add n 1
  let product ← P.mul n next
  let half ← P.div product 2
  return m.indexType.convert half

/-- `j * (j + 1) / 2 + i`. -/
def columnUpper (P : IndexType) (i j : ℤ) : Option ℤ := do
  let next ← P.add j 1
  let product ← P.mul j next
  let half ← P.div product 2
  P.add half i

/-- `i + n * j - j * (j + 1) / 2`. -/
def columnLower (P : IndexType) (n i j : ℤ) : Option ℤ := do
  let columns ← P.mul n j
  let sum ← P.add i columns
  let next ← P.add j 1
  let product ← P.mul j next
  let half ← P.div product 2
  P.sub sum half

/-- `i * n - i * (i - 1) / 2 + j - i`. -/
def rowUpper (P : IndexType) (n i j : ℤ) : Option ℤ := do
  let rows ← P.mul i n
  let previous ← P.sub i 1
  let product ← P.mul i previous
  let half ← P.div product 2
  let rest ← P.sub rows half
  let sum ← P.add rest j
  P.sub sum i

/-- `i * (i + 1) / 2 + j`. -/
def rowLower (P : IndexType) (i j : ℤ) : Option ℤ := do
  let next ← P.add i 1
  let product ← P.mul i next
  let half ← P.div product 2
  P.add half j

/-- The formula of `operator()`. The indices are swapped where they lie outside the triangle. -/
def offset (m : PackedMapping) (i j : ℤ) : Option ℤ :=
  match m.storageOrder, m.triangle with
  | .columnMajor, .upper =>
    if j < i then columnUpper m.indexType.promoted j i
    else columnUpper m.indexType.promoted i j
  | .columnMajor, .lower =>
    if i < j then columnLower m.indexType.promoted m.extent j i
    else columnLower m.indexType.promoted m.extent i j
  | .rowMajor, .upper =>
    if j < i then rowUpper m.indexType.promoted m.extent j i
    else rowUpper m.indexType.promoted m.extent i j
  | .rowMajor, .lower =>
    if i < j then rowLower m.indexType.promoted j i
    else rowLower m.indexType.promoted i j

/-- `operator()`. -/
def call (m : PackedMapping) (i j : ℤ) : Option ℤ := (m.offset i j).map m.indexType.convert

/-- The formulas of `operator()` in exact arithmetic, for a stored entry. -/
def exact (m : PackedMapping) (i j : ℤ) : ℤ :=
  match m.storageOrder, m.triangle with
  | .columnMajor, .upper => j * (j + 1) / 2 + i
  | .columnMajor, .lower => i + m.extent * j - j * (j + 1) / 2
  | .rowMajor, .upper => i * m.extent - i * (i - 1) / 2 + j - i
  | .rowMajor, .lower => i * (i + 1) / 2 + j

/-- An entry of the stored triangle. -/
def Stored (m : PackedMapping) (i j : ℕ) : Prop :=
  i < m.extent ∧ j < m.extent ∧ m.triangle.Contains i j

/-- The first entry comes before the second one in the storage order. -/
def Before (m : PackedMapping) (i j i' j' : ℕ) : Prop :=
  match m.storageOrder with
  | .columnMajor => j < j' ∨ j = j' ∧ i < i'
  | .rowMajor => i < i' ∨ i = i' ∧ j < j'

/-! ## The triangle as segments

A column or a row of the triangle is a segment. Its length is the only thing that depends on
the variant. -/

/-- How many entries of column or row `a` are stored. -/
def segmentLength (m : PackedMapping) (a : ℕ) : ℕ :=
  match m.storageOrder, m.triangle with
  | .columnMajor, .upper | .rowMajor, .lower => a + 1
  | .columnMajor, .lower | .rowMajor, .upper => m.extent - a

/-- The column or row of a stored entry. -/
def segment (m : PackedMapping) (i j : ℕ) : ℕ :=
  match m.storageOrder with
  | .columnMajor => j
  | .rowMajor => i

/-- The place of a stored entry in its column or row. -/
def within (m : PackedMapping) (i j : ℕ) : ℕ :=
  match m.storageOrder, m.triangle with
  | .columnMajor, .upper => i
  | .columnMajor, .lower => i - j
  | .rowMajor, .upper => j - i
  | .rowMajor, .lower => j

theorem two_mul_start_add_one (a : ℕ) : 2 * start (fun k => k + 1) a = a * (a + 1) := by
  induction a with
  | zero => rfl
  | succ a ih => rw [start_succ, Nat.mul_add, ih]; ring

theorem start_add_one (a : ℕ) : (start (fun k => k + 1) a : ℤ) = (a : ℤ) * (a + 1) / 2 := by
  have h : (2 * start (fun k => k + 1) a : ℤ) = (a : ℤ) * (a + 1) := by
    exact_mod_cast two_mul_start_add_one a
  omega

theorem two_mul_start_sub {n a : ℕ} (h : a ≤ n) :
    (2 * start (fun k => n - k) a : ℤ) = 2 * (n * a) - a * (a - 1) := by
  induction a with
  | zero => simp
  | succ a ih =>
    have hsub : ((n - a : ℕ) : ℤ) = n - a := Nat.cast_sub (Nat.le_of_succ_le h)
    have hprev := ih (Nat.le_of_succ_le h)
    rw [start_succ]
    push_cast
    rw [mul_add, hprev, hsub]
    ring

theorem start_sub {n a : ℕ} (h : a ≤ n) :
    (start (fun k => n - k) a : ℤ) = n * a - (a : ℤ) * (a - 1) / 2 := by
  have htwo := two_mul_start_sub h
  omega

theorem start_sub' {n a : ℕ} (h : a ≤ n) :
    (start (fun k => n - k) a : ℤ) = n * a + a - (a : ℤ) * (a + 1) / 2 := by
  have htwo := two_mul_start_sub h
  have hnext : (a : ℤ) * (a + 1) = a * (a - 1) + 2 * a := by ring
  omega

variable {m : PackedMapping} {i j i' j' : ℕ}

theorem Stored.within_lt (h : m.Stored i j) : m.within i j < m.segmentLength (m.segment i j) := by
  obtain ⟨hi, hj, ht⟩ := h
  unfold within segmentLength segment
  unfold Triangle.Contains at ht
  split <;> rename_i ho htri <;> rw [htri] at ht <;> simp only [ho, htri] at ht ⊢ <;> omega

/-- An entry of a segment is stored. -/
theorem exists_stored {a b : ℕ} (ha : a < m.extent) (hb : b < m.segmentLength a) :
    ∃ i j, m.Stored i j ∧ m.segment i j = a ∧ m.within i j = b := by
  unfold segmentLength at hb
  unfold Stored segment within Triangle.Contains
  split at hb <;> rename_i ho htri <;> simp only [ho, htri]
  · exact ⟨b, a, ⟨by omega, ha, by omega⟩, rfl, rfl⟩
  · exact ⟨a, b, ⟨ha, by omega, by omega⟩, rfl, rfl⟩
  · exact ⟨a + b, a, ⟨by omega, ha, by omega⟩, rfl, by omega⟩
  · exact ⟨a, a + b, ⟨ha, by omega, by omega⟩, rfl, by omega⟩

/-- The formulas number the places of the segments. -/
theorem Stored.exact_eq (h : m.Stored i j) :
    m.exact i j = (start m.segmentLength (m.segment i j) + m.within i j : ℕ) := by
  obtain ⟨hi, hj, ht⟩ := h
  unfold exact
  unfold Triangle.Contains at ht
  split <;> rename_i ho htri <;> simp only [htri] at ht
  · have hlen : m.segmentLength = fun k => k + 1 := by funext k; simp [segmentLength, ho, htri]
    rw [hlen, segment, ho, within, ho, htri]
    push_cast
    rw [start_add_one]
  · have hlen : m.segmentLength = fun k => m.extent - k := by
      funext k; simp [segmentLength, ho, htri]
    rw [hlen, segment, ho, within, ho, htri]
    push_cast [ht]
    rw [start_sub' hj.le]
    omega
  · have hlen : m.segmentLength = fun k => m.extent - k := by
      funext k; simp [segmentLength, ho, htri]
    rw [hlen, segment, ho, within, ho, htri]
    push_cast [ht]
    rw [start_sub hi.le, mul_comm (i : ℤ) m.extent]
    omega
  · have hlen : m.segmentLength = fun k => k + 1 := by funext k; simp [segmentLength, ho, htri]
    rw [hlen, segment, ho, within, ho, htri]
    push_cast
    rw [start_add_one]

/-! ## The formulas in machine arithmetic -/

section
variable {P : IndexType} {n i j : ℤ}

theorem columnUpper_eq (hmax : n * (n + 1) ≤ P.max) (hi : 0 ≤ i) (hij : i ≤ j) (hj : j < n) :
    columnUpper P i j = some (j * (j + 1) / 2 + i) := by
  have hpos : 0 ≤ j * (j + 1) := Int.mul_nonneg (by omega) (by omega)
  have hbound : j * (j + 1) + 2 * j + 2 ≤ n * (n + 1) := by nlinarith
  have hnext : P.add j 1 = some (j + 1) := IndexType.result_of_nonneg (by omega) (by omega)
  have hproduct : P.mul j (j + 1) = some (j * (j + 1)) :=
    IndexType.result_of_nonneg hpos (by omega)
  have hhalf := IndexType.div_two (T := P) hpos (by omega)
  have hsum : P.add (j * (j + 1) / 2) i = some (j * (j + 1) / 2 + i) :=
    IndexType.result_of_nonneg (by omega) (by omega)
  simp only [columnUpper, hnext, hproduct, hhalf, hsum, Option.bind_eq_bind, Option.bind_some]

theorem rowLower_eq (hmax : n * (n + 1) ≤ P.max) (hj : 0 ≤ j) (hji : j ≤ i) (hi : i < n) :
    rowLower P i j = some (i * (i + 1) / 2 + j) := columnUpper_eq hmax hj hji hi

theorem columnLower_eq (hmax : n * (n + 1) ≤ P.max) (hj : 0 ≤ j) (hji : j ≤ i) (hi : i < n) :
    columnLower P n i j = some (i + n * j - j * (j + 1) / 2) := by
  have hpos : 0 ≤ j * (j + 1) := Int.mul_nonneg (by omega) (by omega)
  have hbound : j * (j + 1) ≤ n * j := by nlinarith
  have hcolumns : n * j + n + i ≤ n * (n + 1) := by nlinarith
  have hmul : P.mul n j = some (n * j) := IndexType.result_of_nonneg (by omega) (by omega)
  have hsum : P.add i (n * j) = some (i + n * j) :=
    IndexType.result_of_nonneg (by omega) (by omega)
  have hnext : P.add j 1 = some (j + 1) := IndexType.result_of_nonneg (by omega) (by omega)
  have hproduct : P.mul j (j + 1) = some (j * (j + 1)) :=
    IndexType.result_of_nonneg hpos (by omega)
  have hhalf := IndexType.div_two (T := P) hpos (by omega)
  have hsub : P.sub (i + n * j) (j * (j + 1) / 2) = some (i + n * j - j * (j + 1) / 2) :=
    IndexType.result_of_nonneg (by omega) (by omega)
  simp only [columnLower, hmul, hsum, hnext, hproduct, hhalf, hsub, Option.bind_eq_bind,
    Option.bind_some]

theorem mul_sub_one_nonneg (hi : 0 ≤ i) : 0 ≤ i * (i - 1) := by
  obtain rfl | hpos := hi.eq_or_lt
  · exact le_rfl
  · exact Int.mul_nonneg hi (by omega)

/-- For the first row the difference `i - 1` may wrap; it is multiplied by zero. -/
theorem product_previous (hmax : n * (n + 1) ≤ P.max) (hi : 0 ≤ i) (hin : i < n) :
    ∃ y, P.sub i 1 = some y ∧ P.mul i y = some (i * (i - 1)) := by
  obtain rfl | hpos := hi.eq_or_lt
  · obtain ⟨y, hy⟩ := P.sub_one_isSome
    refine ⟨y, hy, ?_⟩
    rw [IndexType.mul, Int.zero_mul, Int.zero_mul]
    exact IndexType.result_of_nonneg (le_refl 0) (by omega)
  · have hle : i * (i - 1) ≤ n * (n + 1) := by nlinarith
    have hn : n ≤ n * (n + 1) := by nlinarith
    exact ⟨i - 1, IndexType.result_of_nonneg (by omega) (by omega),
      IndexType.result_of_nonneg (mul_sub_one_nonneg hi) (by omega)⟩

theorem rowUpper_eq (hmax : n * (n + 1) ≤ P.max) (hi : 0 ≤ i) (hij : i ≤ j) (hj : j < n) :
    rowUpper P n i j = some (i * n - i * (i - 1) / 2 + j - i) := by
  obtain ⟨y, hprevious, hproduct⟩ := product_previous hmax hi (by omega)
  have hpos : 0 ≤ i * (i - 1) := mul_sub_one_nonneg hi
  have hbound : i * (i - 1) ≤ i * n := by nlinarith
  have hrows : i * n + j ≤ n * (n + 1) := by nlinarith
  have hrow : P.mul i n = some (i * n) := IndexType.result_of_nonneg (by omega) (by omega)
  have hhalf := IndexType.div_two (T := P) hpos (by omega)
  have hrest : P.sub (i * n) (i * (i - 1) / 2) = some (i * n - i * (i - 1) / 2) :=
    IndexType.result_of_nonneg (by omega) (by omega)
  have hsum : P.add (i * n - i * (i - 1) / 2) j = some (i * n - i * (i - 1) / 2 + j) :=
    IndexType.result_of_nonneg (by omega) (by omega)
  have hsub : P.sub (i * n - i * (i - 1) / 2 + j) i =
      some (i * n - i * (i - 1) / 2 + j - i) :=
    IndexType.result_of_nonneg (by omega) (by omega)
  simp only [rowUpper, hrow, hprevious, hproduct, hhalf, hrest, hsum, hsub,
    Option.bind_eq_bind, Option.bind_some]

end

/-! ## The mapping -/

/-- The number of entries of the triangle. -/
def spanSize (m : PackedMapping) : ℕ := m.extent * (m.extent + 1) / 2

theorem start_extent (m : PackedMapping) : start m.segmentLength m.extent = m.spanSize := by
  have hup := two_mul_start_add_one m.extent
  have hdown := two_mul_start_sub (le_refl m.extent)
  have hsquare : 2 * ((m.extent : ℤ) * m.extent) - m.extent * (m.extent - 1) =
      m.extent * (m.extent + 1) := by ring
  have hdown' : 2 * start (fun k => m.extent - k) m.extent = m.extent * (m.extent + 1) := by
    exact_mod_cast hdown.trans hsquare
  unfold segmentLength spanSize
  split <;> omega

theorem spanSize_le (m : PackedMapping) : (m.spanSize : ℤ) ≤ m.indexType.max := by
  have h := m.representable
  unfold spanSize
  omega

theorem segment_lt (h : m.Stored i j) : m.segment i j < m.extent := by
  unfold segment
  split
  · exact h.2.1
  · exact h.1

theorem Stored.exact_nonneg (h : m.Stored i j) : 0 ≤ m.exact i j := by
  rw [h.exact_eq]
  exact Int.natCast_nonneg _

theorem Stored.exact_lt (h : m.Stored i j) : m.exact i j < m.spanSize := by
  rw [h.exact_eq, ← m.start_extent]
  exact_mod_cast place_lt_start (segment_lt h) h.within_lt

theorem representable_promoted (m : PackedMapping) :
    (m.extent : ℤ) * (m.extent + 1) ≤ m.indexType.promoted.max := by
  exact_mod_cast m.representable.trans m.indexType.max_le_promoted

/-- On the triangle the machine arithmetic is exact. -/
theorem Stored.call_eq (h : m.Stored i j) : m.call i j = some (m.exact i j) := by
  have hmax := m.representable_promoted
  have hconvert : m.indexType.convert (m.exact i j) = m.exact i j :=
    IndexType.convert_of_nonneg h.exact_nonneg (h.exact_lt.le.trans m.spanSize_le)
  have hoffset : m.offset i j = some (m.exact i j) := by
    obtain ⟨hi, hj, ht⟩ := h
    unfold offset exact
    unfold Triangle.Contains at ht
    split <;> rename_i ho htri <;> simp only [htri] at ht <;> rw [if_neg (by omega)]
    · exact columnUpper_eq hmax (by omega) (by omega) (by omega)
    · exact columnLower_eq hmax (by omega) (by omega) (by omega)
    · exact rowUpper_eq hmax (by omega) (by omega) (by omega)
    · exact rowLower_eq hmax (by omega) (by omega) (by omega)
  rw [call, hoffset, Option.map_some, hconvert]

theorem offset_comm (m : PackedMapping) (i j : ℤ) : m.offset i j = m.offset j i := by
  unfold offset
  obtain hlt | rfl | hlt := lt_trichotomy i j
  · split <;> simp only [hlt, hlt.not_gt, if_true, if_false]
  · rfl
  · split <;> simp only [hlt, hlt.not_gt, if_true, if_false]

theorem call_comm (m : PackedMapping) (i j : ℤ) : m.call i j = m.call j i := by
  rw [call, call, offset_comm]

theorem requiredSpanSize_eq (m : PackedMapping) : m.requiredSpanSize = some (m.spanSize : ℤ) := by
  have hmax := m.representable_promoted
  have hpos : (0 : ℤ) ≤ m.extent * (m.extent + 1) := by positivity
  have hone : 1 ≤ m.indexType.promoted.max := m.indexType.one_le_promoted_max
  have hle : (m.extent : ℤ) + 1 ≤ m.indexType.promoted.max := by
    obtain h0 | h0 := Nat.eq_zero_or_pos m.extent
    · rw [h0]
      exact_mod_cast hone
    · exact (show (m.extent : ℤ) + 1 ≤ m.extent * (m.extent + 1) by nlinarith).trans hmax
  have hnext : m.indexType.promoted.add m.extent 1 = some ((m.extent : ℤ) + 1) :=
    IndexType.result_of_nonneg (by omega) hle
  have hproduct : m.indexType.promoted.mul m.extent (m.extent + 1) =
      some ((m.extent : ℤ) * (m.extent + 1)) := IndexType.result_of_nonneg hpos hmax
  have hhalf := IndexType.div_two (T := m.indexType.promoted) hpos hmax
  have hspan : (m.extent : ℤ) * (m.extent + 1) / 2 = m.spanSize := by
    unfold spanSize
    push_cast
    rfl
  simp only [requiredSpanSize, hnext, hproduct, hhalf, hspan, Option.bind_eq_bind,
    Option.bind_some]
  exact congrArg some (IndexType.convert_of_nonneg (Int.natCast_nonneg _) m.spanSize_le)

/-- What a packed mapping promises. -/
structure Guarantees (m : PackedMapping) : Prop where
  span : m.requiredSpanSize = some (m.spanSize : ℤ)
  exact : ∀ i j, m.Stored i j → m.call i j = some (m.exact i j)
  symmetric : ∀ i < m.extent, ∀ j < m.extent, m.call i j = m.call j i
  bounded : ∀ i j, m.Stored i j → 0 ≤ m.exact i j ∧ m.exact i j < m.spanSize
  injective : ∀ i j i' j', m.Stored i j → m.Stored i' j' → m.call i j = m.call i' j' →
    i = i' ∧ j = j'
  onto : ∀ k < m.spanSize, ∃ i j, m.Stored i j ∧ m.call i j = some (k : ℤ)
  increasing : ∀ i j i' j', m.Stored i j → m.Stored i' j' → m.Before i j i' j' →
    m.exact i j < m.exact i' j'

theorem Stored.exact_lt_of_before (h : m.Stored i j) (h' : m.Stored i' j')
    (hb : m.Before i j i' j') : m.exact i j < m.exact i' j' := by
  have hlex : m.segment i j < m.segment i' j' ∨
      m.segment i j = m.segment i' j' ∧ m.within i j < m.within i' j' := by
    obtain ⟨-, -, ht⟩ := h
    obtain ⟨-, -, ht'⟩ := h'
    unfold Before at hb
    unfold Triangle.Contains at ht ht'
    unfold segment within
    cases ho : m.storageOrder <;> cases htri : m.triangle <;>
      simp only [ho, htri] at hb ht ht' ⊢ <;> omega
  rw [h.exact_eq, h'.exact_eq]
  exact_mod_cast place_lt h.within_lt hlex

theorem Stored.eq_of_call_eq (h : m.Stored i j) (h' : m.Stored i' j')
    (he : m.call i j = m.call i' j') : i = i' ∧ j = j' := by
  rw [h.call_eq, h'.call_eq, Option.some.injEq, h.exact_eq, h'.exact_eq, Int.natCast_inj] at he
  obtain ⟨hsegment, hwithin⟩ := place_injective h.within_lt h'.within_lt he
  obtain ⟨-, -, ht⟩ := h
  obtain ⟨-, -, ht'⟩ := h'
  unfold Triangle.Contains at ht ht'
  unfold segment at hsegment
  unfold within at hwithin
  cases ho : m.storageOrder <;> cases htri : m.triangle <;>
    simp only [ho, htri] at hsegment hwithin ht ht' <;> omega

theorem exists_call_eq {k : ℕ} (hk : k < m.spanSize) :
    ∃ i j, m.Stored i j ∧ m.call i j = some (k : ℤ) := by
  rw [← start_extent] at hk
  obtain ⟨a, ha, b, hb, rfl⟩ := exists_place hk
  obtain ⟨i, j, hs, rfl, rfl⟩ := exists_stored ha hb
  exact ⟨i, j, hs, by rw [hs.call_eq, hs.exact_eq]⟩

/-- A packed mapping numbers the stored triangle without gaps, in storage order. -/
theorem packed_guarantees (m : PackedMapping) : m.Guarantees where
  span := m.requiredSpanSize_eq
  exact _ _ h := h.call_eq
  symmetric i _ j _ := m.call_comm i j
  bounded _ _ h := ⟨h.exact_nonneg, h.exact_lt⟩
  injective _ _ _ _ h h' := h.eq_of_call_eq h'
  onto _ := exists_call_eq
  increasing _ _ _ _ h h' := h.exact_lt_of_before h'

end PackedMapping

end CCForge.Linalg
