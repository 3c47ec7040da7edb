import CCForge.Linalg.Dense
import CCForge.Linalg.Packed

/-!
# Triangular products

The functions read one triangle of a square matrix. With an implicit unit diagonal they do not
read the diagonal either. The product in place of a matrix and a vector overwrites the vector
element by element, in the direction in which no element is needed again.
-/

namespace CCForge.Linalg

open CCForge.Loops

universe u

variable {R : Type u}

/-- `implicit_unit_diagonal_t` and `explicit_diagonal_t`. -/
inductive DiagonalStorage where
  | implicitUnit
  | explicit
  deriving DecidableEq, Repr

section
variable [NonUnitalNonAssocSemiring R] (A : ℕ × ℕ → R) (t : Triangle) (d : DiagonalStorage)

/-- What one entry of row `i` adds to the sum of the row. -/
def rowTerm (x : ℕ → R) (i j : ℕ) : R :=
  match d with
  | .implicitUnit => if j = i then x j else A (i, j) * x j
  | .explicit => A (i, j) * x j

/-- The sum over the part of row `i` that lies in the triangle. -/
def rowSum (n : ℕ) (x : ℕ → R) (i : ℕ) : R :=
  match t with
  | .upper => forUp i n (fun j sum => sum + rowTerm A d x i j) 0
  | .lower => forUp 0 (i + 1) (fun j sum => sum + rowTerm A d x i j) 0

/-- `compute_row`. -/
def computeRow (n i : ℕ) (x : ℕ → R) : ℕ → R :=
  Function.update x i (rowSum A t d n x i)

/-- `triangular_matrix_vector_product`, in place. -/
def triangularMatrixVectorProductInPlace (n : ℕ) (x : ℕ → R) : ℕ → R :=
  match t with
  | .upper => forUp 0 n (computeRow A t d n) x
  | .lower => forDown n (computeRow A t d n) x

/-- `triangular_matrix_vector_product`, out of place. -/
def triangularMatrixVectorProduct (n : ℕ) (x y : ℕ → R) : ℕ → R :=
  forUp 0 n (fun i y => Function.update y i (rowSum A t d n x i)) y

/-! ## Products with a matrix

They copy the matrix to a buffer first. -/

/-- The largest value of `std::size_t`. -/
def sizeMax : ℕ := 2 ^ 64 - 1

/-- `__checked_matrix_storage_size`. -/
def checkedMatrixStorageSize (rows columns : ℕ) : Except String ℕ :=
  if columns ≠ 0 ∧ rows > sizeMax / columns then
    .error "matrix storage size is not representable"
  else
    .ok (rows * columns)

/-- The place of an entry in the buffer, in the arithmetic of `std::size_t`. -/
def bufferIndex (columnCount i j : ℕ) : ℕ := (i * columnCount + j) % (sizeMax + 1)

/-- The buffer `tmp` with a copy of the matrix. -/
def copyToBuffer (m n : ℕ) (C : ℕ × ℕ → R) : ℕ → R :=
  forUp 0 m (fun i tmp => forUp 0 n (fun j tmp =>
    Function.update tmp (bufferIndex n i j) (C (i, j))) tmp) fun _ => 0

/-- `at_tmp`. -/
def atTmp (tmp : ℕ → R) (n i j : ℕ) : R := tmp (bufferIndex n i j)

/-- `triangular_matrix_left_product`. -/
def triangularMatrixLeftProduct (m n : ℕ) (C : ℕ × ℕ → R) : Except String (ℕ × ℕ → R) :=
  match checkedMatrixStorageSize m n with
  | .error e => .error e
  | .ok _ =>
    let tmp := copyToBuffer m n C
    .ok <| forUp 0 m (fun i C => forUp 0 n (fun j C =>
      Function.update C (i, j) (rowSum A t d m (fun k => atTmp tmp n k j) i)) C) C

/-- What one entry of column `j` adds to the sum of the column. -/
def columnTerm (x : ℕ → R) (j k : ℕ) : R :=
  match d with
  | .implicitUnit => if k = j then x k else x k * A (k, j)
  | .explicit => x k * A (k, j)

/-- The sum over the part of column `j` that lies in the triangle. -/
def columnSum (n : ℕ) (x : ℕ → R) (j : ℕ) : R :=
  match t with
  | .upper => forUp 0 (j + 1) (fun k sum => sum + columnTerm A d x j k) 0
  | .lower => forUp j n (fun k sum => sum + columnTerm A d x j k) 0

/-- `triangular_matrix_right_product`. -/
def triangularMatrixRightProduct (m n : ℕ) (C : ℕ × ℕ → R) : Except String (ℕ × ℕ → R) :=
  match checkedMatrixStorageSize m n with
  | .error e => .error e
  | .ok _ =>
    let tmp := copyToBuffer m n C
    .ok <| forUp 0 m (fun i C => forUp 0 n (fun j C =>
      Function.update C (i, j) (columnSum A t d n (fun k => atTmp tmp n i k) j)) C) C

end

section
variable [Zero R] [One R] (A : ℕ × ℕ → R) (t : Triangle) (d : DiagonalStorage)

/-- The matrix that the tags name: zero outside the triangle, and one on an implicit diagonal. -/
def named (p : ℕ × ℕ) : R :=
  if p.1 = p.2 then
    match d with
    | .implicitUnit => 1
    | .explicit => A p
  else if t.Contains p.1 p.2 then A p
  else 0

/-- The matrices have the same entries wherever the tags let a function read them. -/
def SameNamed (n : ℕ) (A B : ℕ × ℕ → R) : Prop :=
  ∀ i < n, ∀ j < n, t.Contains i j → (i = j → d = .explicit) → A (i, j) = B (i, j)

end

section
variable [CommRing R] {A B : ℕ × ℕ → R} {t : Triangle} {d : DiagonalStorage} {n m i j : ℕ}
  {x y : ℕ → R}

/-- The summands outside the triangle are zero. -/
theorem sum_named {f : ℕ → R} (hf : ∀ j < n, ¬t.Contains i j → f j = 0) (hi : i < n) :
    ∑ j ∈ Finset.range n, f j =
      match t with
      | .upper => ∑ j ∈ Finset.Ico i n, f j
      | .lower => ∑ j ∈ Finset.Ico 0 (i + 1), f j := by
  cases t with
  | upper =>
    refine (Finset.sum_subset ?_ fun j hj hout => ?_).symm
    · exact fun j hj => Finset.mem_range.mpr (Finset.mem_Ico.mp hj).2
    · rw [Finset.mem_range] at hj
      exact hf j hj fun h => hout (Finset.mem_Ico.mpr ⟨h, hj⟩)
  | lower =>
    refine (Finset.sum_subset ?_ fun j hj hout => ?_).symm
    · exact fun j hj => Finset.mem_range.mpr (by have := (Finset.mem_Ico.mp hj).2; omega)
    · rw [Finset.mem_range] at hj
      exact hf j hj fun h => hout (Finset.mem_Ico.mpr ⟨Nat.zero_le j, Nat.lt_succ_of_le h⟩)

theorem rowTerm_eq (h : t.Contains i j) : rowTerm A d x i j = named A t d (i, j) * x j := by
  unfold rowTerm named
  by_cases he : i = j
  · subst he
    cases d <;> simp
  · have hne : j ≠ i := fun h' => he h'.symm
    cases d <;> simp [he, hne, h]

theorem named_outside (h : ¬t.Contains i j) : named A t d (i, j) = 0 := by
  have hne : i ≠ j := by
    rintro rfl
    exact h (contains_self t i)
  simp [named, hne, h]

/-- The sum of a row is the row's entry of the dense product. -/
theorem rowSum_eq (hi : i < n) : rowSum A t d n x i = mulVec n (named A t d) x i := by
  have hsum := sum_named (t := t) (f := fun j => named A t d (i, j) * x j)
    (fun j _ h => by rw [named_outside h, zero_mul]) hi
  rw [mulVec, hsum]
  cases t with
  | upper =>
    simp only [rowSum, forUp_add, zero_add]
    exact Finset.sum_congr rfl fun j hj => rowTerm_eq (Finset.mem_Ico.mp hj).1
  | lower =>
    simp only [rowSum, forUp_add, zero_add]
    exact Finset.sum_congr rfl fun j hj =>
      rowTerm_eq (Nat.le_of_lt_succ (Finset.mem_Ico.mp hj).2)

/-- The sum of a row reads only the elements that the triangle meets. -/
theorem rowSum_congr (hi : i < n) (h : ∀ j < n, t.Contains i j → x j = y j) :
    rowSum A t d n x i = rowSum A t d n y i := by
  rw [rowSum_eq hi, rowSum_eq hi]
  refine Finset.sum_congr rfl fun j hj => ?_
  by_cases ht : t.Contains i j
  · rw [h j (Finset.mem_range.mp hj) ht]
  · rw [named_outside ht, zero_mul, zero_mul]

theorem triangularMatrixVectorProduct_eq (k : ℕ) :
    triangularMatrixVectorProduct A t d n x y k =
      if k < n then mulVec n (named A t d) x k else y k := by
  rw [triangularMatrixVectorProduct, forUp_update]
  split
  · rename_i h
    exact rowSum_eq h
  · rfl

/-- Upwards for the upper triangle, downwards for the lower one: a row is computed before the
elements that it reads are overwritten. -/
theorem inPlace_eq_rowSum (k : ℕ) :
    triangularMatrixVectorProductInPlace A t d n x k =
      if k < n then rowSum A t d n x k else x k := by
  cases t with
  | upper =>
    revert k
    refine forUp_induction (I := fun i (z : ℕ → R) => ∀ k, z k =
      if k < i then rowSum A .upper d n x k else x k) (Nat.zero_le n) (fun k => ?_)
      fun i z _ hin hz k => ?_
    · rw [if_neg (Nat.not_lt_zero k)]
    · have hrow : rowSum A .upper d n z i = rowSum A .upper d n x i :=
        rowSum_congr hin fun j _ hij => by rw [hz j, if_neg (not_lt.mpr hij)]
      rw [computeRow, hrow]
      by_cases hk : k = i
      · rw [hk, Function.update_self, if_pos (Nat.lt_succ_self i)]
      · rw [Function.update_of_ne hk, hz k]
        exact if_congr (by omega) rfl rfl
  | lower =>
    have hrun : ∀ k, triangularMatrixVectorProductInPlace A .lower d n x k =
        if 0 ≤ k ∧ k < n then rowSum A .lower d n x k else x k := by
      refine forDown_induction (I := fun i (z : ℕ → R) => ∀ k, z k =
        if i ≤ k ∧ k < n then rowSum A .lower d n x k else x k) (fun k => ?_)
        fun i z hin hz k => ?_
      · rw [if_neg (by omega)]
      · have hrow : rowSum A .lower d n z i = rowSum A .lower d n x i :=
          rowSum_congr hin fun j _ hij => by
            rw [hz j, if_neg (fun h => Nat.not_succ_le_self i (h.1.trans hij))]
        rw [computeRow, hrow]
        by_cases hk : k = i
        · rw [hk, Function.update_self, if_pos ⟨le_rfl, hin⟩]
        · rw [Function.update_of_ne hk, hz k]
          exact if_congr (by omega) rfl rfl
    rw [hrun k]
    exact if_congr (and_iff_right (Nat.zero_le k)) rfl rfl

theorem triangularMatrixVectorProductInPlace_eq (k : ℕ) :
    triangularMatrixVectorProductInPlace A t d n x k =
      if k < n then mulVec n (named A t d) x k else x k := by
  rw [inPlace_eq_rowSum]
  split
  · rename_i h
    exact rowSum_eq h
  · rfl

/-! ## The buffer -/

/-- The check admits exactly the sizes that `std::size_t` represents. -/
theorem checkedMatrixStorageSize_eq (m n : ℕ) :
    checkedMatrixStorageSize m n =
      if m * n ≤ sizeMax then .ok (m * n)
      else .error "matrix storage size is not representable" := by
  unfold checkedMatrixStorageSize
  obtain rfl | hn := Nat.eq_zero_or_pos n
  · rw [if_neg (fun h => h.1 rfl), if_pos (by rw [Nat.mul_zero]; exact Nat.zero_le _)]
  · have hiff : m > sizeMax / n ↔ ¬m * n ≤ sizeMax := by
      rw [gt_iff_lt, Nat.div_lt_iff_lt_mul hn, not_le]
    by_cases h : m * n ≤ sizeMax
    · rw [if_neg (fun hc => hiff.mp hc.2 h), if_pos h]
    · rw [if_pos ⟨hn.ne', hiff.mpr h⟩, if_neg h]

theorem bufferIndex_eq (h : m * n ≤ sizeMax) (hi : i < m) (hj : j < n) :
    bufferIndex n i j = i * n + j := by
  have hle : (i + 1) * n ≤ m * n := Nat.mul_le_mul_right n hi
  rw [Nat.succ_mul] at hle
  exact Nat.mod_eq_of_lt (by omega)

/-- The places of the entries are different. -/
theorem bufferIndex_injective (h : m * n ≤ sizeMax) {i' j' : ℕ} (hi : i < m) (hj : j < n)
    (hi' : i' < m) (hj' : j' < n) (he : bufferIndex n i j = bufferIndex n i' j') :
    (i, j) = (i', j') := by
  rw [bufferIndex_eq h hi hj, bufferIndex_eq h hi' hj'] at he
  have hmod := congrArg (· % n) he
  simp only [Nat.mul_add_mod', Nat.mod_eq_of_lt hj, Nat.mod_eq_of_lt hj'] at hmod
  subst hmod
  have hmul : i * n = i' * n := Nat.add_right_cancel he
  rw [Nat.eq_of_mul_eq_mul_right (Nat.zero_lt_of_lt hj) hmul]

theorem atTmp_copyToBuffer {C : ℕ × ℕ → R} (h : m * n ≤ sizeMax) (hi : i < m) (hj : j < n) :
    atTmp (copyToBuffer m n C) n i j = C (i, j) := by
  unfold atTmp copyToBuffer
  rw [forUp_nest (fun _ => 0) (fun _ => n)]
  change (nest m (fun _ => 0) fun _ => n).foldl
    (write (fun p : ℕ × ℕ => bufferIndex n p.1 p.2) fun p _ => C p) (fun _ => 0)
    (bufferIndex n i j) = C (i, j)
  have hnodup : ((nest m (fun _ => 0) fun _ => n).map fun p => bufferIndex n p.1 p.2).Nodup := by
    refine List.Nodup.map_on (fun p hp q hq he => ?_) (nodup_nest m _ _)
    obtain ⟨hp1, -, hp2⟩ := mem_nest.mp hp
    obtain ⟨hq1, -, hq2⟩ := mem_nest.mp hq
    exact bufferIndex_injective h hp1 hp2 hq1 hq2 he
  exact foldl_write (v := (i, j)) hnodup (mem_nest.mpr ⟨hi, Nat.zero_le j, hj⟩)

/-! ## Products with a matrix -/

theorem triangularMatrixLeftProduct_eq (h : n * m ≤ sizeMax) (C : ℕ × ℕ → R) :
    triangularMatrixLeftProduct A t d n m C = .ok fun p =>
      if p.1 < n ∧ p.2 < m then mul n (named A t d) C p else C p := by
  rw [triangularMatrixLeftProduct, checkedMatrixStorageSize_eq, if_pos h]
  refine congrArg Except.ok (funext fun p => ?_)
  rw [forUp_update_entries n m fun p =>
    rowSum A t d n (fun k => atTmp (copyToBuffer n m C) m k p.2) p.1]
  split
  · rename_i hp
    rw [rowSum_eq hp.1]
    exact Finset.sum_congr rfl fun k hk => congrArg (named A t d (p.1, k) * ·)
      (atTmp_copyToBuffer h (Finset.mem_range.mp hk) hp.2)
  · rfl

theorem columnTerm_eq (h : t.Contains i j) :
    columnTerm A d x j i = x i * named A t d (i, j) := by
  unfold columnTerm named
  by_cases he : i = j
  · subst he
    cases d <;> simp
  · cases d <;> simp [he, h]

theorem columnSum_eq (hj : j < n) :
    columnSum A t d n x j = ∑ k ∈ Finset.range n, x k * named A t d (k, j) := by
  have hsum := sum_named (t := t.other) (f := fun k => x k * named A t d (k, j))
    (fun k _ h => by rw [named_outside (fun hc => h (contains_other.mpr hc)), mul_zero]) hj
  rw [hsum]
  cases t with
  | upper =>
    simp only [columnSum, forUp_add, zero_add]
    exact Finset.sum_congr rfl fun k hk =>
      columnTerm_eq (Nat.le_of_lt_succ (Finset.mem_Ico.mp hk).2)
  | lower =>
    simp only [columnSum, forUp_add, zero_add]
    exact Finset.sum_congr rfl fun k hk => columnTerm_eq (Finset.mem_Ico.mp hk).1

theorem triangularMatrixRightProduct_eq (h : m * n ≤ sizeMax) (C : ℕ × ℕ → R) :
    triangularMatrixRightProduct A t d m n C = .ok fun p =>
      if p.1 < m ∧ p.2 < n then mul n C (named A t d) p else C p := by
  rw [triangularMatrixRightProduct, checkedMatrixStorageSize_eq, if_pos h]
  refine congrArg Except.ok (funext fun p => ?_)
  rw [forUp_update_entries m n fun p =>
    columnSum A t d n (fun k => atTmp (copyToBuffer m n C) n p.1 k) p.2]
  split
  · rename_i hp
    rw [columnSum_eq hp.2]
    exact Finset.sum_congr rfl fun k hk => congrArg (· * named A t d (k, p.2))
      (atTmp_copyToBuffer h hp.1 (Finset.mem_range.mp hk))
  · rfl

/-! ## The products agree -/

theorem named_congr (h : SameNamed t d n A B) (hi : i < n) (hj : j < n) :
    named A t d (i, j) = named B t d (i, j) := by
  unfold named
  by_cases he : i = j
  · subst he
    cases d with
    | implicitUnit => simp only [if_true]
    | explicit =>
      simp only [if_true]
      exact h i hi i hi (contains_self t i) fun _ => rfl
  · by_cases ht : t.Contains i j
    · simp only [he, ht, if_true, if_false]
      exact h i hi j hj ht fun h' => absurd h' he
    · simp only [he, ht, if_false]

/-- What the triangular products of an `n` by `n` matrix promise. -/
structure TriangularProducts (A : ℕ × ℕ → R) (t : Triangle) (d : DiagonalStorage) (n : ℕ) :
    Prop where
  inPlace : ∀ x k, triangularMatrixVectorProductInPlace A t d n x k =
    if k < n then mulVec n (named A t d) x k else x k
  outOfPlace : ∀ x y k, triangularMatrixVectorProduct A t d n x y k =
    if k < n then mulVec n (named A t d) x k else y k
  dense : ∀ x, triangularMatrixVectorProductInPlace A t d n x =
    matrixVectorProduct n n (named A t d) x x
  denseOut : ∀ x y, triangularMatrixVectorProduct A t d n x y =
    matrixVectorProduct n n (named A t d) x y
  left : ∀ m C, triangularMatrixLeftProduct A t d n m C =
    if n * m ≤ sizeMax then .ok (matrixProduct n m n (named A t d) C C)
    else .error "matrix storage size is not representable"
  leftEntry : ∀ m C p, matrixProduct n m n (named A t d) C C p =
    if p.1 < n ∧ p.2 < m then mul n (named A t d) C p else C p
  right : ∀ m C, triangularMatrixRightProduct A t d m n C =
    if m * n ≤ sizeMax then .ok (matrixProduct m n n C (named A t d) C)
    else .error "matrix storage size is not representable"
  rightEntry : ∀ m C p, matrixProduct m n n C (named A t d) C p =
    if p.1 < m ∧ p.2 < n then mul n C (named A t d) p else C p
  independent : ∀ B, SameNamed t d n A B →
    (∀ x, triangularMatrixVectorProductInPlace A t d n x =
      triangularMatrixVectorProductInPlace B t d n x) ∧
    (∀ x y, triangularMatrixVectorProduct A t d n x y =
      triangularMatrixVectorProduct B t d n x y) ∧
    (∀ m C, triangularMatrixLeftProduct A t d n m C =
      triangularMatrixLeftProduct B t d n m C) ∧
    ∀ m C, triangularMatrixRightProduct A t d m n C = triangularMatrixRightProduct B t d m n C

theorem inPlace_eq_dense (x : ℕ → R) :
    triangularMatrixVectorProductInPlace A t d n x = matrixVectorProduct n n (named A t d) x x := by
  funext k
  rw [triangularMatrixVectorProductInPlace_eq, matrixVectorProduct_eq]

theorem outOfPlace_eq_dense (x y : ℕ → R) :
    triangularMatrixVectorProduct A t d n x y = matrixVectorProduct n n (named A t d) x y := by
  funext k
  rw [triangularMatrixVectorProduct_eq, matrixVectorProduct_eq]

theorem leftProduct_eq_dense (m : ℕ) (C : ℕ × ℕ → R) :
    triangularMatrixLeftProduct A t d n m C =
      if n * m ≤ sizeMax then .ok (matrixProduct n m n (named A t d) C C)
      else .error "matrix storage size is not representable" := by
  split
  · rename_i h
    rw [triangularMatrixLeftProduct_eq h]
    exact congrArg Except.ok (funext fun p => (matrixProduct_eq C p).symm)
  · rename_i h
    rw [triangularMatrixLeftProduct, checkedMatrixStorageSize_eq, if_neg h]

theorem rightProduct_eq_dense (m : ℕ) (C : ℕ × ℕ → R) :
    triangularMatrixRightProduct A t d m n C =
      if m * n ≤ sizeMax then .ok (matrixProduct m n n C (named A t d) C)
      else .error "matrix storage size is not representable" := by
  split
  · rename_i h
    rw [triangularMatrixRightProduct_eq h]
    exact congrArg Except.ok (funext fun p => (matrixProduct_eq C p).symm)
  · rename_i h
    rw [triangularMatrixRightProduct, checkedMatrixStorageSize_eq, if_neg h]

/-- Dense products read only the entries in range. -/
theorem matrixVectorProduct_congr (h : ∀ i < n, ∀ j < n, A (i, j) = B (i, j)) (x y : ℕ → R) :
    matrixVectorProduct n n A x y = matrixVectorProduct n n B x y := by
  funext k
  rw [matrixVectorProduct_eq, matrixVectorProduct_eq]
  split
  · rename_i hk
    exact Finset.sum_congr rfl fun j hj => by rw [h k hk j (Finset.mem_range.mp hj)]
  · rfl

theorem matrixProduct_congr_left (h : ∀ i < n, ∀ j < n, A (i, j) = B (i, j))
    (C : ℕ × ℕ → R) : matrixProduct n m n A C C = matrixProduct n m n B C C := by
  funext p
  rw [matrixProduct_eq, matrixProduct_eq]
  split
  · rename_i hp
    exact Finset.sum_congr rfl fun k hk => by rw [h p.1 hp.1 k (Finset.mem_range.mp hk)]
  · rfl

theorem matrixProduct_congr_right (h : ∀ i < n, ∀ j < n, A (i, j) = B (i, j))
    (C : ℕ × ℕ → R) : matrixProduct m n n C A C = matrixProduct m n n C B C := by
  funext p
  rw [matrixProduct_eq, matrixProduct_eq]
  split
  · rename_i hp
    exact Finset.sum_congr rfl fun k hk => by rw [h k (Finset.mem_range.mp hk) p.2 hp.2]
  · rfl

/-- The products in place, out of place and through a buffer are the dense products of the
matrix that the tags name. -/
theorem triangular_products (A : ℕ × ℕ → R) (t : Triangle) (d : DiagonalStorage) (n : ℕ) :
    TriangularProducts A t d n where
  inPlace _ := triangularMatrixVectorProductInPlace_eq
  outOfPlace _ _ := triangularMatrixVectorProduct_eq
  dense := inPlace_eq_dense
  denseOut := outOfPlace_eq_dense
  left := leftProduct_eq_dense
  leftEntry _ C := matrixProduct_eq C
  right := rightProduct_eq_dense
  rightEntry _ C := matrixProduct_eq C
  independent B h := by
    have hnamed : ∀ i < n, ∀ j < n, named A t d (i, j) = named B t d (i, j) :=
      fun i hi j hj => named_congr h hi hj
    refine ⟨fun x => ?_, fun x y => ?_, fun m C => ?_, fun m C => ?_⟩
    · rw [inPlace_eq_dense, inPlace_eq_dense, matrixVectorProduct_congr hnamed]
    · rw [outOfPlace_eq_dense, outOfPlace_eq_dense, matrixVectorProduct_congr hnamed]
    · rw [leftProduct_eq_dense, leftProduct_eq_dense, matrixProduct_congr_left hnamed]
    · rw [rightProduct_eq_dense, rightProduct_eq_dense, matrixProduct_congr_right hnamed]

end

end CCForge.Linalg
