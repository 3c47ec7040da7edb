import CCForge.Linalg.Triangular
import Mathlib.Algebra.Field.Basic
import Mathlib.Algebra.Field.Rat

/-!
# Triangular solves

The solution overwrites the right hand side. For the upper triangle the elements are solved
from the last one up, for the lower one from the first one down, and each is computed from the
elements solved before it.
-/

namespace CCForge.Linalg

open CCForge.Loops

universe u

variable {R : Type u}

section
variable [Field R] (A : ℕ × ℕ → R) (t : Triangle) (d : DiagonalStorage)

/-- `if constexpr (!is_unit) x[i] /= A[i, i];` -/
def divideByDiagonal (i : ℕ) (x : ℕ → R) : ℕ → R :=
  match d with
  | .implicitUnit => x
  | .explicit => Function.update x i (x i / A (i, i))

/-- `x[i] -= A[i, j] * x[j]`. -/
def eliminate (i j : ℕ) (x : ℕ → R) : ℕ → R :=
  Function.update x i (x i - A (i, j) * x j)

/-- `triangular_matrix_vector_solve`. -/
def triangularMatrixVectorSolve (n : ℕ) (x : ℕ → R) : ℕ → R :=
  match t with
  | .upper => forDown n (fun i x => divideByDiagonal A d i (forUp (i + 1) n (eliminate A i) x)) x
  | .lower => forUp 0 n (fun i x => divideByDiagonal A d i (forUp 0 i (eliminate A i) x)) x

/-- `if constexpr (!is_unit) Bcol(i) /= A[i, i];` -/
def divideColumnByDiagonal (j i : ℕ) (B : ℕ × ℕ → R) : ℕ × ℕ → R :=
  match d with
  | .implicitUnit => B
  | .explicit => Function.update B (i, j) (B (i, j) / A (i, i))

/-- `Bcol(i) -= A[i, k] * Bcol(k)`. -/
def eliminateColumn (j i k : ℕ) (B : ℕ × ℕ → R) : ℕ × ℕ → R :=
  Function.update B (i, j) (B (i, j) - A (i, k) * B (k, j))

/-- The body of the loop over the columns. -/
def solveColumn (n j : ℕ) (B : ℕ × ℕ → R) : ℕ × ℕ → R :=
  match t with
  | .upper => forDown n (fun i B =>
      divideColumnByDiagonal A d j i (forUp (i + 1) n (eliminateColumn A j i) B)) B
  | .lower => forUp 0 n (fun i B =>
      divideColumnByDiagonal A d j i (forUp 0 i (eliminateColumn A j i) B)) B

/-- `triangular_matrix_matrix_left_solve` with `nrhs` right hand sides. -/
def triangularMatrixMatrixLeftSolve (n nrhs : ℕ) (B : ℕ × ℕ → R) : ℕ × ℕ → R :=
  forUp 0 nrhs (solveColumn A t d n) B

end

/-! ## Columns -/

/-- Column `j` of a matrix. -/
def column (B : ℕ × ℕ → R) (j i : ℕ) : R := B (i, j)

theorem column_update_self {i j : ℕ} (B : ℕ × ℕ → R) (v : R) :
    column (Function.update B (i, j) v) j = Function.update (column B j) i v := by
  funext k
  obtain rfl | hne := eq_or_ne k i
  · rw [column, Function.update_self, Function.update_self]
  · rw [column, Function.update_of_ne (fun h => hne (Prod.mk.inj h).1),
      Function.update_of_ne hne, column]

theorem column_update_of_ne {i j l : ℕ} (h : l ≠ j) (B : ℕ × ℕ → R) (v : R) :
    column (Function.update B (i, j) v) l = column B l := by
  funext k
  rw [column, Function.update_of_ne (fun h' => h (Prod.mk.inj h').2), column]

/-! ## One right hand side -/

section
variable [Field R] {A : ℕ × ℕ → R} {t : Triangle} {d : DiagonalStorage} {n i j k : ℕ}
  {x y b : ℕ → R}

/-- The diagonal that the solve divides by has no zero. -/
def DiagonalNonzero (A : ℕ × ℕ → R) (d : DiagonalStorage) (n : ℕ) : Prop :=
  d = .explicit → ∀ i < n, A (i, i) ≠ 0

/-- The elements that row `i` of the triangle meets besides the diagonal. -/
def Triangle.offDiagonal (t : Triangle) (n i : ℕ) : Finset ℕ :=
  match t with
  | .upper => Finset.Ico (i + 1) n
  | .lower => Finset.Ico 0 i

theorem mem_offDiagonal (hi : i < n) :
    j ∈ t.offDiagonal n i ↔ j < n ∧ t.Contains i j ∧ j ≠ i := by
  cases t <;> simp only [Triangle.offDiagonal, Triangle.Contains, Finset.mem_Ico] <;> omega

/-- A row of the product, with the diagonal apart. -/
theorem mulVec_named (hi : i < n) :
    mulVec n (named A t d) x i =
      named A t d (i, i) * x i + ∑ j ∈ t.offDiagonal n i, A (i, j) * x j := by
  have hmem : i ∉ t.offDiagonal n i := fun h => ((mem_offDiagonal hi).mp h).2.2 rfl
  have hsum : ∑ j ∈ insert i (t.offDiagonal n i), named A t d (i, j) * x j =
      mulVec n (named A t d) x i := by
    refine Finset.sum_subset (fun j hj => ?_) fun j hj hout => ?_
    · obtain rfl | hj := Finset.mem_insert.mp hj
      · exact Finset.mem_range.mpr hi
      · exact Finset.mem_range.mpr ((mem_offDiagonal hi).mp hj).1
    · rw [Finset.mem_insert, not_or, mem_offDiagonal hi] at hout
      rw [named_outside fun ht => hout.2 ⟨Finset.mem_range.mp hj, ht, hout.1⟩, zero_mul]
  rw [← hsum, Finset.sum_insert hmem]
  refine congrArg _ (Finset.sum_congr rfl fun j hj => ?_)
  obtain ⟨-, ht, hne⟩ := (mem_offDiagonal hi).mp hj
  simp only [named, Ne.symm hne, ht, if_true, if_false]

/-- The inner loop subtracts what the elements it passes contribute. -/
theorem forUp_eliminate {lo hi : ℕ} (hout : ∀ j, lo ≤ j → j < hi → j ≠ i) :
    forUp lo hi (eliminate A i) x =
      Function.update x i (x i - ∑ j ∈ Finset.Ico lo hi, A (i, j) * x j) := by
  obtain hle | hlt := Nat.le_total hi lo
  · rw [forUp_of_le hle, Finset.Ico_eq_empty_of_le hle, Finset.sum_empty, sub_zero,
      Function.update_eq_self]
  · refine forUp_induction (I := fun k (z : ℕ → R) =>
      z = Function.update x i (x i - ∑ j ∈ Finset.Ico lo k, A (i, j) * x j)) hlt ?_
      fun k z hl hr hz => ?_
    · rw [Finset.Ico_self, Finset.sum_empty, sub_zero, Function.update_eq_self]
    · rw [eliminate, hz, Function.update_self, Function.update_of_ne (hout k hl hr),
        Function.update_idem, Finset.sum_Ico_succ_top hl, sub_sub]

/-- What one row of the solve does to the vector. -/
def solvedElement (A : ℕ × ℕ → R) (t : Triangle) (d : DiagonalStorage) (n i : ℕ)
    (x : ℕ → R) : R :=
  let rest := x i - ∑ j ∈ t.offDiagonal n i, A (i, j) * x j
  match d with
  | .implicitUnit => rest
  | .explicit => rest / A (i, i)

theorem divideByDiagonal_update (v : R) :
    divideByDiagonal A d i (Function.update x i v) = Function.update x i
      (match d with
        | .implicitUnit => v
        | .explicit => v / A (i, i)) := by
  cases d with
  | implicitUnit => rfl
  | explicit => rw [divideByDiagonal, Function.update_self, Function.update_idem]

theorem solveRow_upper : divideByDiagonal A d i (forUp (i + 1) n (eliminate A i) x) =
    Function.update x i (solvedElement A .upper d n i x) := by
  rw [forUp_eliminate fun j hl _ => by omega]
  exact divideByDiagonal_update _

theorem solveRow_lower : divideByDiagonal A d i (forUp 0 i (eliminate A i) x) =
    Function.update x i (solvedElement A .lower d n i x) := by
  rw [forUp_eliminate fun j _ hr => by omega]
  exact divideByDiagonal_update _

theorem solvedElement_spec (h : DiagonalNonzero A d n) (hi : i < n) :
    named A t d (i, i) * solvedElement A t d n i x +
      ∑ j ∈ t.offDiagonal n i, A (i, j) * x j = x i := by
  cases d with
  | implicitUnit => simp only [named, solvedElement, if_true, one_mul, sub_add_cancel]
  | explicit =>
    simp only [named, solvedElement, if_true]
    rw [mul_div_cancel₀ _ (h rfl i hi), sub_add_cancel]

/-- An element outside the row's part of the triangle does not matter. -/
theorem mulVec_update {v : R} (h : ¬t.Contains k i) :
    mulVec n (named A t d) (Function.update x i v) k = mulVec n (named A t d) x k := by
  refine Finset.sum_congr rfl fun j _ => ?_
  obtain rfl | hne := eq_or_ne j i
  · rw [named_outside h, zero_mul, zero_mul]
  · rw [Function.update_of_ne hne]

/-- After its row an element solves its equation. -/
theorem mulVec_solvedElement (h : DiagonalNonzero A d n) (hi : i < n) :
    mulVec n (named A t d) (Function.update x i (solvedElement A t d n i x)) i = x i := by
  have hspec := solvedElement_spec (t := t) (x := x) h hi
  rw [mulVec_named hi, Function.update_self]
  refine Eq.trans (congrArg _ (Finset.sum_congr rfl fun j hj => ?_)) hspec
  rw [Function.update_of_ne ((mem_offDiagonal hi).mp hj).2.2]

/-- Where the right hand side is a product, the row finds the factor. -/
theorem solvedElement_product (h : DiagonalNonzero A d n) (hi : i < n)
    (hx : x i = mulVec n (named A t d) y i) (hrest : ∀ j ∈ t.offDiagonal n i, x j = y j) :
    solvedElement A t d n i x = y i := by
  have hsum : ∑ j ∈ t.offDiagonal n i, A (i, j) * x j =
      ∑ j ∈ t.offDiagonal n i, A (i, j) * y j :=
    Finset.sum_congr rfl fun j hj => by rw [hrest j hj]
  rw [mulVec_named hi] at hx
  cases d with
  | implicitUnit =>
    simp only [named, if_true, one_mul] at hx
    simp only [solvedElement, hx, hsum, add_sub_cancel_right]
  | explicit =>
    simp only [named, if_true] at hx
    simp only [solvedElement, hx, hsum, add_sub_cancel_right]
    exact mul_div_cancel_left₀ (y i) (h rfl i hi)

theorem triangularMatrixVectorSolve_frame (hk : n ≤ k) :
    triangularMatrixVectorSolve A t d n b k = b k := by
  cases t with
  | upper =>
    refine forDown_induction (I := fun _ (z : ℕ → R) => z k = b k) rfl fun i z hi hz => ?_
    rw [solveRow_upper, Function.update_of_ne (by omega), hz]
  | lower =>
    refine forUp_frame (g := fun z : ℕ → R => z k) fun i z _ hi => ?_
    rw [solveRow_lower (n := n), Function.update_of_ne (by omega)]

/-- The vector that the solve leaves satisfies every equation. -/
theorem triangularMatrixVectorSolve_spec (h : DiagonalNonzero A d n) (hk : k < n) :
    mulVec n (named A t d) (triangularMatrixVectorSolve A t d n b) k = b k := by
  cases t with
  | upper =>
    have hrun : (∀ k, 0 ≤ k → k < n → mulVec n (named A .upper d)
        (triangularMatrixVectorSolve A .upper d n b) k = b k) ∧
        ∀ k < 0, triangularMatrixVectorSolve A .upper d n b k = b k := by
      refine forDown_induction (I := fun i (z : ℕ → R) =>
        (∀ k, i ≤ k → k < n → mulVec n (named A .upper d) z k = b k) ∧ ∀ k < i, z k = b k)
        ⟨fun k hl hr => absurd hr (not_lt.mpr hl), fun _ _ => rfl⟩ fun i z hi hz => ?_
      rw [solveRow_upper]
      refine ⟨fun k hl hr => ?_, fun k hlt => ?_⟩
      · obtain rfl | hlt := hl.eq_or_lt
        · rw [mulVec_solvedElement h hi]
          exact hz.2 i (Nat.lt_succ_self i)
        · rw [mulVec_update (t := .upper) (not_le.mpr hlt)]
          exact hz.1 k hlt hr
      · rw [Function.update_of_ne hlt.ne]
        exact hz.2 k (by omega)
    exact hrun.1 k (Nat.zero_le k) hk
  | lower =>
    have hrun : (∀ k < n, mulVec n (named A .lower d)
        (triangularMatrixVectorSolve A .lower d n b) k = b k) ∧
        ∀ k, n ≤ k → triangularMatrixVectorSolve A .lower d n b k = b k := by
      refine forUp_induction (I := fun i (z : ℕ → R) =>
        (∀ k < i, mulVec n (named A .lower d) z k = b k) ∧ ∀ k, i ≤ k → z k = b k)
        (Nat.zero_le n) ⟨fun k hk => absurd hk (Nat.not_lt_zero k), fun _ _ => rfl⟩
        fun i z _ hi hz => ?_
      rw [solveRow_lower (n := n)]
      refine ⟨fun k hlt => ?_, fun k hle => ?_⟩
      · obtain rfl | hlt := (Nat.le_of_lt_succ hlt).eq_or_lt
        · rw [mulVec_solvedElement h hi]
          exact hz.2 k le_rfl
        · rw [mulVec_update (t := .lower) (not_le.mpr hlt)]
          exact hz.1 k hlt
      · rw [Function.update_of_ne (by omega)]
        exact hz.2 k (by omega)
    exact hrun.1 k hk

/-- The solve of a product finds the factor. -/
theorem triangularMatrixVectorSolve_product (h : DiagonalNonzero A d n)
    (hb : ∀ i < n, b i = mulVec n (named A t d) y i) (hk : k < n) :
    triangularMatrixVectorSolve A t d n b k = y k := by
  cases t with
  | upper =>
    have hrun : ∀ k < n, triangularMatrixVectorSolve A .upper d n b k =
        if 0 ≤ k then y k else b k := by
      refine forDown_induction (I := fun i (z : ℕ → R) =>
        ∀ k < n, z k = if i ≤ k then y k else b k) (fun k hk => ?_) fun i z hi hz k hk => ?_
      · rw [if_neg (not_le.mpr hk)]
      · have hsolved : solvedElement A .upper d n i z = y i := by
          refine solvedElement_product h hi ?_ fun j hj => ?_
          · rw [hz i hi, if_neg (Nat.not_succ_le_self i), hb i hi]
          · have hmem := Finset.mem_Ico.mp hj
            rw [hz j hmem.2, if_pos hmem.1]
        rw [solveRow_upper, hsolved]
        obtain rfl | hne := eq_or_ne k i
        · rw [Function.update_self, if_pos le_rfl]
        · rw [Function.update_of_ne hne, hz k hk]
          exact if_congr (by omega) rfl rfl
    rw [hrun k hk, if_pos (Nat.zero_le k)]
  | lower =>
    have hrun : ∀ k < n, triangularMatrixVectorSolve A .lower d n b k =
        if k < n then y k else b k := by
      refine forUp_induction (I := fun i (z : ℕ → R) =>
        ∀ k < n, z k = if k < i then y k else b k) (Nat.zero_le n) (fun k _ => ?_)
        fun i z _ hi hz k hk => ?_
      · rw [if_neg (Nat.not_lt_zero k)]
      · have hsolved : solvedElement A .lower d n i z = y i := by
          refine solvedElement_product h hi ?_ fun j hj => ?_
          · rw [hz i hi, if_neg (lt_irrefl i), hb i hi]
          · have hmem := Finset.mem_Ico.mp hj
            rw [hz j (hmem.2.trans hi), if_pos hmem.2]
        rw [solveRow_lower (n := n), hsolved]
        obtain rfl | hne := eq_or_ne k i
        · rw [Function.update_self, if_pos (Nat.lt_succ_self k)]
        · rw [Function.update_of_ne hne, hz k hk]
          exact if_congr (by omega) rfl rfl
    rw [hrun k hk, if_pos hk]

/-! ## Several right hand sides -/

theorem column_eliminateColumn (B : ℕ × ℕ → R) :
    column (eliminateColumn A j i k B) j = eliminate A i k (column B j) :=
  column_update_self B _

theorem column_divideColumn (B : ℕ × ℕ → R) :
    column (divideColumnByDiagonal A d j i B) j = divideByDiagonal A d i (column B j) := by
  cases d with
  | implicitUnit => rfl
  | explicit => exact column_update_self B _

/-- On its own column the body is the solve of a vector. -/
theorem column_solveColumn (B : ℕ × ℕ → R) :
    column (solveColumn A t d n j B) j = triangularMatrixVectorSolve A t d n (column B j) := by
  cases t with
  | upper =>
    refine forDown_hom (g := fun B => column B j) fun i B => ?_
    rw [column_divideColumn]
    exact congrArg _ (forUp_hom (g := fun B => column B j) fun k B => column_eliminateColumn B)
  | lower =>
    refine forUp_hom (g := fun B => column B j) fun i B => ?_
    rw [column_divideColumn]
    exact congrArg _ (forUp_hom (g := fun B => column B j) fun k B => column_eliminateColumn B)

theorem column_divideColumn_of_ne {l : ℕ} (h : l ≠ j) (B : ℕ × ℕ → R) :
    column (divideColumnByDiagonal A d j i B) l = column B l := by
  cases d with
  | implicitUnit => rfl
  | explicit => exact column_update_of_ne h B _

theorem column_solveColumn_of_ne {l : ℕ} (h : l ≠ j) (B : ℕ × ℕ → R) :
    column (solveColumn A t d n j B) l = column B l := by
  cases t with
  | upper =>
    refine forDown_induction (I := fun _ C => column C l = column B l) rfl fun i C _ hC => ?_
    rw [column_divideColumn_of_ne h, ← hC]
    exact forUp_frame (g := fun B => column B l) fun k B _ _ => column_update_of_ne h B _
  | lower =>
    refine forUp_frame (g := fun B => column B l) fun i C _ _ => ?_
    rw [column_divideColumn_of_ne h]
    exact forUp_frame (g := fun B => column B l) fun k B _ _ => column_update_of_ne h B _

/-- Each column is solved on its own. -/
theorem column_leftSolve (nrhs : ℕ) (B : ℕ × ℕ → R) (l : ℕ) :
    column (triangularMatrixMatrixLeftSolve A t d n nrhs B) l =
      if l < nrhs then triangularMatrixVectorSolve A t d n (column B l) else column B l := by
  revert l
  refine forUp_induction (I := fun j C => ∀ l, column C l =
    if l < j then triangularMatrixVectorSolve A t d n (column B l) else column B l)
    (Nat.zero_le nrhs) (fun l => ?_) fun j C _ _ hC l => ?_
  · rw [if_neg (Nat.not_lt_zero l)]
  · obtain rfl | hne := eq_or_ne l j
    · rw [column_solveColumn, hC l, if_neg (lt_irrefl l), if_pos (Nat.lt_succ_self l)]
    · rw [column_solveColumn_of_ne hne, hC l]
      exact if_congr (by omega) rfl rfl

/-! ## The solves invert the products -/

/-- What the triangular solves promise. -/
structure TriangularSolves (A : ℕ × ℕ → R) (t : Triangle) (d : DiagonalStorage) (n : ℕ) :
    Prop where
  solves : ∀ b, ∀ k < n, mulVec n (named A t d) (triangularMatrixVectorSolve A t d n b) k = b k
  frame : ∀ b k, n ≤ k → triangularMatrixVectorSolve A t d n b k = b k
  inverse : ∀ y, ∀ k < n, triangularMatrixVectorSolve A t d n (mulVec n (named A t d) y) k = y k
  inverseInPlace : ∀ y,
    triangularMatrixVectorSolve A t d n (triangularMatrixVectorProductInPlace A t d n y) = y
  solvesMatrix : ∀ nrhs B, ∀ i < n, ∀ j < nrhs,
    mul n (named A t d) (triangularMatrixMatrixLeftSolve A t d n nrhs B) (i, j) = B (i, j)
  frameMatrix : ∀ nrhs B i j, n ≤ i ∨ nrhs ≤ j →
    triangularMatrixMatrixLeftSolve A t d n nrhs B (i, j) = B (i, j)
  inverseMatrix : ∀ nrhs Y,
    triangularMatrixMatrixLeftSolve A t d n nrhs (matrixProduct n nrhs n (named A t d) Y Y) = Y
  inverseLeftProduct : ∀ nrhs Y C, triangularMatrixLeftProduct A t d n nrhs Y = .ok C →
    triangularMatrixMatrixLeftSolve A t d n nrhs C = Y

theorem solve_inPlace (h : DiagonalNonzero A d n) (y : ℕ → R) :
    triangularMatrixVectorSolve A t d n (triangularMatrixVectorProductInPlace A t d n y) = y := by
  funext k
  obtain hk | hk := Nat.lt_or_ge k n
  · refine triangularMatrixVectorSolve_product h (fun i hi => ?_) hk
    rw [triangularMatrixVectorProductInPlace_eq, if_pos hi]
  · rw [triangularMatrixVectorSolve_frame hk, triangularMatrixVectorProductInPlace_eq,
      if_neg (not_lt.mpr hk)]

theorem leftSolve_product (h : DiagonalNonzero A d n) (nrhs : ℕ) (Y : ℕ × ℕ → R) :
    triangularMatrixMatrixLeftSolve A t d n nrhs (matrixProduct n nrhs n (named A t d) Y Y) =
      Y := by
  funext ⟨i, j⟩
  have hcolumn := congrFun (column_leftSolve (A := A) (t := t) (d := d) (n := n) nrhs
    (matrixProduct n nrhs n (named A t d) Y Y) j) i
  refine hcolumn.trans ?_
  split
  · rename_i hj
    obtain hi | hi := Nat.lt_or_ge i n
    · refine triangularMatrixVectorSolve_product (y := column Y j) h (fun k hk => ?_) hi
      rw [column, matrixProduct_eq, if_pos ⟨hk, hj⟩]
      rfl
    · rw [triangularMatrixVectorSolve_frame hi, column, matrixProduct_eq,
        if_neg fun h => absurd h.1 (not_lt.mpr hi)]
  · rename_i hj
    rw [column, matrixProduct_eq, if_neg fun h => hj h.2]

/-- A solve with a matrix that has no zero on the diagonal inverts the product. -/
theorem triangular_solves (A : ℕ × ℕ → R) (t : Triangle) (d : DiagonalStorage) (n : ℕ)
    (h : DiagonalNonzero A d n) : TriangularSolves A t d n where
  solves _ _ := triangularMatrixVectorSolve_spec h
  frame _ _ := triangularMatrixVectorSolve_frame
  inverse _ _ := triangularMatrixVectorSolve_product h fun _ _ => rfl
  inverseInPlace := solve_inPlace h
  solvesMatrix nrhs B i hi j hj := by
    have hcolumn := column_leftSolve (A := A) (t := t) (d := d) (n := n) nrhs B j
    rw [if_pos hj] at hcolumn
    have hspec := triangularMatrixVectorSolve_spec (t := t) (b := column B j) h hi
    rw [← hcolumn] at hspec
    exact hspec
  frameMatrix nrhs B i j hout := by
    refine (congrFun (column_leftSolve (A := A) (t := t) (d := d) (n := n) nrhs B j) i).trans ?_
    split
    · exact triangularMatrixVectorSolve_frame (hout.resolve_right (by omega))
    · rfl
  inverseMatrix := leftSolve_product h
  inverseLeftProduct nrhs Y C hC := by
    rw [leftProduct_eq_dense] at hC
    split at hC
    · cases hC
      exact leftSolve_product h nrhs Y
    · cases hC

/-- The matrix of the rationals with two on the diagonal and everywhere above it. -/
theorem triangular_solves_two : TriangularSolves (fun _ => (2 : ℚ)) .upper .explicit 2 :=
  triangular_solves (fun _ => 2) .upper .explicit 2 fun _ _ _ => two_ne_zero

end

end CCForge.Linalg
