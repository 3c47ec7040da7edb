import CCForge.Linalg.Dense
import CCForge.Linalg.Packed
import Mathlib.Algebra.Star.Basic
import Mathlib.NumberTheory.Zsqrtd.GaussianInt

/-!
# Symmetric and Hermitian products

The functions read one triangle of the matrix and take the entries outside it from their mirror
images, conjugated for a Hermitian matrix. The diagonal of a Hermitian matrix counts with its
real part.
-/

namespace CCForge.Linalg

open CCForge.Loops

universe u

variable {R : Type u}

/-- The real part of an element: `__real_if_needed`. Conjugation is `__conj_if_needed`. -/
class RealPart (R : Type u) [CommRing R] [StarRing R] where
  re : R → R
  re_one : re 1 = 1
  re_star : ∀ a, re (star a) = re a
  star_re : ∀ a, star (re a) = re a

/-- Complex numbers with integer parts. -/
instance : RealPart (ℤ√(-1)) where
  re z := ⟨z.re, 0⟩
  re_one := rfl
  re_star _ := rfl
  star_re z := by rw [Zsqrtd.star_mk, neg_zero]

open RealPart

section
variable [CommRing R] (A : ℕ × ℕ → R) (t : Triangle) (n : ℕ) (x y : ℕ → R)

/-- The loops of the overwriting products. The entry above the diagonal and the one below it
that mirror each other are `above i j` and `below i j`. -/
def mirroredProduct (diagonal : ℕ → R) (above below : ℕ → ℕ → R) : ℕ → R :=
  let y := forUp 0 n (fun i y => Function.update y i 0) y
  forUp 0 n (fun i y =>
    let y := Function.update y i (y i + diagonal i * x i)
    forUp (i + 1) n (fun j y =>
      let y := Function.update y i (y i + above i j * x j)
      Function.update y j (y j + below i j * x i)) y) y

/-- The loops of the updating products. -/
def mirroredUpdate (entry : ℕ → ℕ → R) (z : ℕ → R) : ℕ → R :=
  forUp 0 n (fun i z =>
    Function.update z i (y i + forUp 0 n (fun j sum => sum + entry i j * x j) 0)) z

/-- `symmetric_matrix_vector_product`. -/
def symmetricMatrixVectorProduct : ℕ → R :=
  match t with
  | .upper => mirroredProduct n x y (fun i => A (i, i)) (fun i j => A (i, j)) fun i j => A (i, j)
  | .lower => mirroredProduct n x y (fun i => A (i, i)) (fun i j => A (j, i)) fun i j => A (j, i)

/-- `symmetric_matrix_vector_product`, updating. -/
def symmetricMatrixVectorProductUpdate (z : ℕ → R) : ℕ → R :=
  match t with
  | .upper => mirroredUpdate n x y
      (fun i j => if i = j then A (i, i) else if i < j then A (i, j) else A (j, i)) z
  | .lower => mirroredUpdate n x y
      (fun i j => if i = j then A (i, i) else if i < j then A (j, i) else A (i, j)) z

/-- The loops of the products with an `n` by `columns` matrix. -/
def entryProduct (columns : ℕ) (entry : ℕ → ℕ → R) (B C : ℕ × ℕ → R) : ℕ × ℕ → R :=
  forUp 0 n (fun i C => forUp 0 columns (fun j C =>
    Function.update C (i, j) (forUp 0 n (fun l sum => sum + entry i l * B (l, j)) 0)) C) C

/-- `symmetric_matrix_product`. -/
def symmetricMatrixProduct (columns : ℕ) (B C : ℕ × ℕ → R) : ℕ × ℕ → R :=
  match t with
  | .upper => entryProduct n columns
      (fun i l => if i = l then A (i, i) else if i < l then A (i, l) else A (l, i)) B C
  | .lower => entryProduct n columns
      (fun i l => if i = l then A (i, i) else if i > l then A (i, l) else A (l, i)) B C

end

section
variable [CommRing R] [StarRing R] [RealPart R] (A : ℕ × ℕ → R) (t : Triangle) (n : ℕ)
  (x y : ℕ → R)

/-- `hermitian_matrix_vector_product`. -/
def hermitianMatrixVectorProduct : ℕ → R :=
  match t with
  | .upper => mirroredProduct n x y (fun i => re (A (i, i))) (fun i j => A (i, j))
      fun i j => star (A (i, j))
  | .lower => mirroredProduct n x y (fun i => re (A (i, i))) (fun i j => star (A (j, i)))
      fun i j => A (j, i)

/-- `hermitian_matrix_vector_product`, updating. -/
def hermitianMatrixVectorProductUpdate (z : ℕ → R) : ℕ → R :=
  match t with
  | .upper => mirroredUpdate n x y
      (fun i j => if i = j then re (A (i, i)) else if i < j then A (i, j) else star (A (j, i))) z
  | .lower => mirroredUpdate n x y
      (fun i j => if i = j then re (A (i, i)) else if i < j then star (A (j, i)) else A (i, j)) z

/-- `hermitian_matrix_product`. -/
def hermitianMatrixProduct (columns : ℕ) (B C : ℕ × ℕ → R) : ℕ × ℕ → R :=
  match t with
  | .upper => entryProduct n columns
      (fun i l => if i = l then re (A (i, i)) else if i < l then A (i, l) else star (A (l, i))) B C
  | .lower => entryProduct n columns
      (fun i l => if i = l then re (A (i, i)) else if i > l then A (i, l) else star (A (l, i))) B C

end

/-! ## The mirrored matrices -/

section
variable [CommRing R] {A B : ℕ × ℕ → R} {t : Triangle} {n i j : ℕ} {x y : ℕ → R}

/-- The symmetric matrix that the named triangle stands for. -/
def symmetricOf (A : ℕ × ℕ → R) (t : Triangle) (p : ℕ × ℕ) : R :=
  if t.Contains p.1 p.2 then A p else A p.swap

/-- The Hermitian matrix that the named triangle stands for. -/
def hermitianOf [StarRing R] [RealPart R] (A : ℕ × ℕ → R) (t : Triangle) (p : ℕ × ℕ) : R :=
  if p.1 = p.2 then re (A p)
  else if t.Contains p.1 p.2 then A p
  else star (A p.swap)

/-- The body of the inner loop adds to two elements. -/
theorem mirrored_step {a b : R} {z : ℕ → R} (h : i ≠ j) (k : ℕ) :
    (let z := Function.update z i (z i + a)
     Function.update z j (z j + b)) k =
      z k + ((if k = i then a else 0) + if k = j then b else 0) := by
  by_cases hj : k = j
  · subst hj
    simp [h.symm]
  · by_cases hi : k = i
    · subst hi
      simp [hj]
    · simp [hi, hj]

/-- A loop whose body adds to every element of a vector adds the sums. -/
theorem forUp_add_elements {a b : ℕ} {g : ℕ → (ℕ → R) → ℕ → R} {f : ℕ → ℕ → R}
    (h : ∀ i z k, a ≤ i → i < b → g i z k = z k + f i k) (z : ℕ → R) (k : ℕ) :
    forUp a b g z k = z k + ∑ i ∈ Finset.Ico a b, f i k := by
  obtain hle | hlt := Nat.le_total b a
  · rw [forUp_of_le hle, Finset.Ico_eq_empty_of_le hle, Finset.sum_empty, add_zero]
  · refine forUp_induction (I := fun i (w : ℕ → R) =>
      w k = z k + ∑ l ∈ Finset.Ico a i, f l k) hlt ?_ fun i w hl hr hw => ?_
    · rw [Finset.Ico_self, Finset.sum_empty, add_zero]
    · rw [h i w k hl hr, hw, Finset.sum_Ico_succ_top hl, add_assoc]

/-- Row `i` adds its own part of the product and its mirror image. -/
theorem mirrored_row (diagonal : ℕ → R) (above below : ℕ → ℕ → R) (z : ℕ → R) (k : ℕ) :
    (let z := Function.update z i (z i + diagonal i * x i)
     forUp (i + 1) n (fun j y =>
      let y := Function.update y i (y i + above i j * x j)
      Function.update y j (y j + below i j * x i)) z) k =
      z k + ((if k = i then diagonal i * x i + ∑ j ∈ Finset.Ico (i + 1) n, above i j * x j
        else 0) + if i < k ∧ k < n then below i k * x i else 0) := by
  have hinner := forUp_add_elements (a := i + 1) (b := n)
    (g := fun j y =>
      let y := Function.update y i (y i + above i j * x j)
      Function.update y j (y j + below i j * x i))
    (f := fun j k => (if k = i then above i j * x j else 0) +
      if k = j then below i j * x i else 0)
    (fun j y k hl _ => mirrored_step (by omega) k) (Function.update z i (z i + diagonal i * x i)) k
  refine hinner.trans ?_
  rw [Finset.sum_add_distrib, Finset.sum_ite_eq, ← add_assoc, ← add_assoc]
  refine congrArg₂ (· + ·) ?_ (if_congr (by rw [Finset.mem_Ico, Nat.succ_le_iff]) rfl rfl)
  by_cases hk : k = i
  · simp only [hk, Function.update_self, if_true, add_assoc]
  · simp only [hk, Function.update_of_ne hk, if_false, Finset.sum_const_zero]

/-- The matrix that the loops of the overwriting products stand for. -/
def mirrored (diagonal : ℕ → R) (above below : ℕ → ℕ → R) (p : ℕ × ℕ) : R :=
  if p.1 = p.2 then diagonal p.1
  else if p.1 < p.2 then above p.1 p.2
  else below p.2 p.1

theorem mulVec_mirrored {diagonal : ℕ → R} {above below : ℕ → ℕ → R} (hi : i < n) :
    mulVec n (mirrored diagonal above below) x i =
      diagonal i * x i + ∑ j ∈ Finset.Ico (i + 1) n, above i j * x j +
        ∑ j ∈ Finset.Ico 0 i, below j i * x j := by
  have hsplit := Finset.sum_Ico_consecutive
    (fun j => mirrored diagonal above below (i, j) * x j) (Nat.zero_le i) hi.le
  rw [mulVec, Finset.range_eq_Ico, ← hsplit, Finset.sum_eq_sum_Ico_succ_bot hi, add_comm]
  refine congrArg₂ (· + ·) (congrArg₂ (· + ·) ?_ ?_) ?_
  · simp only [mirrored, if_true]
  · refine Finset.sum_congr rfl fun j hj => ?_
    have hlt := (Finset.mem_Ico.mp hj).1
    rw [mirrored, if_neg (by omega), if_pos (Nat.lt_of_succ_le hlt)]
  · refine Finset.sum_congr rfl fun j hj => ?_
    have hlt := (Finset.mem_Ico.mp hj).2
    rw [mirrored, if_neg (by omega), if_neg (by omega)]

theorem mirroredProduct_eq {diagonal : ℕ → R} {above below : ℕ → ℕ → R} (k : ℕ) :
    mirroredProduct n x y diagonal above below k =
      if k < n then mulVec n (mirrored diagonal above below) x k else y k := by
  have hrows := forUp_add_elements (a := 0) (b := n) (fun i z k _ _ =>
    mirrored_row (i := i) (n := n) (x := x) diagonal above below z k)
    (forUp 0 n (fun i y => Function.update y i 0) y) k
  refine hrows.trans ?_
  rw [forUp_update, Finset.sum_add_distrib, Finset.sum_ite_eq]
  split
  · rename_i hk
    rw [mulVec_mirrored hk, zero_add, if_pos (Finset.mem_Ico.mpr ⟨Nat.zero_le k, hk⟩)]
    refine congrArg _ ?_
    rw [← Finset.sum_filter]
    refine Finset.sum_congr ?_ fun j _ => rfl
    ext j
    rw [Finset.mem_filter, Finset.mem_Ico, Finset.mem_Ico]
    omega
  · rename_i hk
    rw [if_neg fun h => hk (Finset.mem_Ico.mp h).2, zero_add]
    refine (congrArg _ (Finset.sum_eq_zero fun i _ => ?_)).trans (add_zero _)
    exact if_neg fun h => hk h.2

theorem mirroredUpdate_eq {entry : ℕ → ℕ → R} (z : ℕ → R) (k : ℕ) :
    mirroredUpdate n x y entry z k =
      if k < n then y k + mulVec n (fun p => entry p.1 p.2) x k else z k := by
  simp only [mirroredUpdate, forUp_sum]
  exact forUp_update n (fun i => y i + mulVec n (fun p => entry p.1 p.2) x i) z k

theorem entryProduct_eq {columns : ℕ} {entry : ℕ → ℕ → R} (B C : ℕ × ℕ → R) (p : ℕ × ℕ) :
    entryProduct n columns entry B C p =
      if p.1 < n ∧ p.2 < columns then mul n (fun p => entry p.1 p.2) B p else C p := by
  simp only [entryProduct, forUp_sum]
  exact forUp_update_entries n columns (mul n (fun p => entry p.1 p.2) B) C p

/-! ## The entries that the functions read -/

omit [CommRing R] in
/-- The lower matrix product asks for the entry below the diagonal first. -/
theorem mirrored_flip (diagonal : ℕ → R) (above below : ℕ → ℕ → R) :
    (fun p : ℕ × ℕ => if p.1 = p.2 then diagonal p.1
      else if p.1 > p.2 then below p.2 p.1 else above p.1 p.2) =
      mirrored diagonal above below := by
  funext ⟨i, j⟩
  simp only [mirrored]
  obtain h | rfl | h := lt_trichotomy i j
  · rw [if_neg h.ne, if_neg h.not_gt, if_neg h.ne, if_pos h]
  · rw [if_pos rfl, if_pos rfl]
  · rw [if_neg h.ne', if_pos h, if_neg h.ne', if_neg h.not_gt]

omit [CommRing R] in
theorem symmetricOf_mirrored (A : ℕ × ℕ → R) (t : Triangle) :
    symmetricOf A t = match t with
      | .upper => mirrored (fun i => A (i, i)) (fun i j => A (i, j)) fun i j => A (i, j)
      | .lower => mirrored (fun i => A (i, i)) (fun i j => A (j, i)) fun i j => A (j, i) := by
  funext ⟨i, j⟩
  cases t <;> obtain h | rfl | h := lt_trichotomy i j <;>
    simp only [symmetricOf, mirrored, contains_upper, contains_lower, Prod.swap_prod_mk]
  · simp only [h.ne, h, h.le, if_true, if_false]
  · simp only [le_rfl, if_true]
  · simp only [h.ne', h.not_gt, h.not_ge, if_false]
  · simp only [h.ne, h, h.not_ge, if_true, if_false]
  · simp only [le_rfl, if_true]
  · simp only [h.ne', h.not_gt, h.le, if_true, if_false]

variable [StarRing R] [RealPart R]

theorem hermitianOf_mirrored (A : ℕ × ℕ → R) (t : Triangle) :
    hermitianOf A t = match t with
      | .upper => mirrored (fun i => re (A (i, i))) (fun i j => A (i, j))
          fun i j => star (A (i, j))
      | .lower => mirrored (fun i => re (A (i, i))) (fun i j => star (A (j, i)))
          fun i j => A (j, i) := by
  funext ⟨i, j⟩
  cases t <;> obtain h | rfl | h := lt_trichotomy i j <;>
    simp only [hermitianOf, mirrored, contains_upper, contains_lower, Prod.swap_prod_mk]
  · simp only [h.ne, h, h.le, if_true, if_false]
  · simp only [if_true]
  · simp only [h.ne', h.not_gt, h.not_ge, if_false]
  · simp only [h.ne, h, h.not_ge, if_true, if_false]
  · simp only [if_true]
  · simp only [h.ne', h.not_gt, h.le, if_true, if_false]

/-! ## The products -/

/-- The three functions are the products with the matrix `S`, into `y`, added to `y` and into
a matrix. -/
structure ProductsOf (n : ℕ) (S : ℕ × ℕ → R) (product : (ℕ → R) → (ℕ → R) → ℕ → R)
    (update : (ℕ → R) → (ℕ → R) → (ℕ → R) → ℕ → R)
    (matrix : ℕ → (ℕ × ℕ → R) → (ℕ × ℕ → R) → ℕ × ℕ → R) : Prop where
  product : ∀ x y k, product x y k = if k < n then mulVec n S x k else y k
  update : ∀ x y z k, update x y z k = if k < n then y k + mulVec n S x k else z k
  matrix : ∀ columns B C p, matrix columns B C p =
    if p.1 < n ∧ p.2 < columns then mul n S B p else C p

omit [StarRing R] [RealPart R] in
theorem symmetric_products (A : ℕ × ℕ → R) (t : Triangle) (n : ℕ) :
    ProductsOf n (symmetricOf A t) (symmetricMatrixVectorProduct A t n)
      (symmetricMatrixVectorProductUpdate A t n) (symmetricMatrixProduct A t n) := by
  rw [symmetricOf_mirrored]
  cases t with
  | upper => exact ⟨fun _ _ => mirroredProduct_eq, fun _ _ => mirroredUpdate_eq,
      fun _ => entryProduct_eq⟩
  | lower =>
    refine ⟨fun _ _ => mirroredProduct_eq, fun _ _ => mirroredUpdate_eq, fun columns B C p => ?_⟩
    have hflip := mirrored_flip (fun i => A (i, i)) (fun i j => A (j, i)) fun i j => A (j, i)
    exact (entryProduct_eq B C p).trans (congrArg
      (fun S => if p.1 < n ∧ p.2 < columns then mul n S B p else C p) hflip)

theorem hermitian_products (A : ℕ × ℕ → R) (t : Triangle) (n : ℕ) :
    ProductsOf n (hermitianOf A t) (hermitianMatrixVectorProduct A t n)
      (hermitianMatrixVectorProductUpdate A t n) (hermitianMatrixProduct A t n) := by
  rw [hermitianOf_mirrored]
  cases t with
  | upper => exact ⟨fun _ _ => mirroredProduct_eq, fun _ _ => mirroredUpdate_eq,
      fun _ => entryProduct_eq⟩
  | lower =>
    refine ⟨fun _ _ => mirroredProduct_eq, fun _ _ => mirroredUpdate_eq, fun columns B C p => ?_⟩
    have hflip := mirrored_flip (fun i => re (A (i, i))) (fun i j => star (A (j, i)))
      fun i j => A (j, i)
    exact (entryProduct_eq B C p).trans (congrArg
      (fun S => if p.1 < n ∧ p.2 < columns then mul n S B p else C p) hflip)

omit [StarRing R] [RealPart R] in
/-- Products with matrices that agree in range are the same functions. -/
theorem ProductsOf.unique {S S' : ℕ × ℕ → R} {product product' update update' matrix matrix'}
    (h : ProductsOf n S product update matrix) (h' : ProductsOf n S' product' update' matrix')
    (hS : ∀ i < n, ∀ j < n, S (i, j) = S' (i, j)) :
    product = product' ∧ update = update' ∧ matrix = matrix' := by
  have hvec : ∀ x, ∀ k < n, mulVec n S x k = mulVec n S' x k := fun x k hk =>
    Finset.sum_congr rfl fun j hj => by rw [hS k hk j (Finset.mem_range.mp hj)]
  refine ⟨?_, ?_, ?_⟩
  · funext x y k
    rw [h.product, h'.product]
    split
    · rename_i hk
      exact hvec x k hk
    · rfl
  · funext x y z k
    rw [h.update, h'.update]
    split
    · rename_i hk
      rw [hvec x k hk]
    · rfl
  · funext columns B C p
    rw [h.matrix, h'.matrix]
    split
    · rename_i hp
      exact Finset.sum_congr rfl fun j hj => by rw [hS p.1 hp.1 j (Finset.mem_range.mp hj)]
    · rfl

/-- The matrices have the same entries in the named triangle. -/
def SameTriangle (t : Triangle) (n : ℕ) (A B : ℕ × ℕ → R) : Prop :=
  ∀ i < n, ∀ j < n, t.Contains i j → A (i, j) = B (i, j)

omit [CommRing R] [StarRing R] [RealPart R] in
theorem symmetricOf_congr (h : SameTriangle t n A B) (hi : i < n) (hj : j < n) :
    symmetricOf A t (i, j) = symmetricOf B t (i, j) := by
  unfold symmetricOf
  split
  · rename_i ht
    exact h i hi j hj ht
  · rename_i ht
    exact h j hj i hi (contains_swap ht)

theorem hermitianOf_congr (h : SameTriangle t n A B) (hi : i < n) (hj : j < n) :
    hermitianOf A t (i, j) = hermitianOf B t (i, j) := by
  unfold hermitianOf
  split
  · rename_i he
    simp only at he
    subst he
    exact congrArg re (h i hi i hi (contains_self t i))
  · split
    · rename_i ht
      exact h i hi j hj ht
    · rename_i ht
      exact congrArg star (h j hj i hi (contains_swap ht))

omit [CommRing R] [StarRing R] [RealPart R] in
theorem symmetricOf_transpose (A : ℕ × ℕ → R) (t : Triangle) :
    symmetricOf (fun p => A p.swap) t.other = symmetricOf A t := by
  funext ⟨i, j⟩
  simp only [symmetricOf, contains_other, Prod.swap_prod_mk]
  by_cases h : t.Contains i j <;> by_cases h' : t.Contains j i
  · rw [eq_of_contains h h']
  · rw [if_neg h', if_pos h]
  · rw [if_pos h', if_neg h]
  · exact absurd (contains_swap h) h'

theorem hermitianOf_conjTranspose (A : ℕ × ℕ → R) (t : Triangle) :
    hermitianOf (fun p => star (A p.swap)) t.other = hermitianOf A t := by
  funext ⟨i, j⟩
  simp only [hermitianOf, contains_other, Prod.swap_prod_mk, star_star]
  obtain rfl | hne := eq_or_ne i j
  · rw [if_pos rfl, if_pos rfl, re_star]
  · rw [if_neg hne, if_neg hne]
    by_cases h : t.Contains i j <;> by_cases h' : t.Contains j i
    · exact absurd (eq_of_contains h h') hne
    · rw [if_neg h', if_pos h]
    · rw [if_pos h', if_neg h]
    · exact absurd (contains_swap h) h'

/-- What the symmetric and the Hermitian products promise. -/
structure MirroredProducts (A : ℕ × ℕ → R) (t : Triangle) (n : ℕ) : Prop where
  symmetric : ProductsOf n (symmetricOf A t) (symmetricMatrixVectorProduct A t n)
    (symmetricMatrixVectorProductUpdate A t n) (symmetricMatrixProduct A t n)
  hermitian : ProductsOf n (hermitianOf A t) (hermitianMatrixVectorProduct A t n)
    (hermitianMatrixVectorProductUpdate A t n) (hermitianMatrixProduct A t n)
  symmetricIndependent : ∀ B, SameTriangle t n A B →
    symmetricMatrixVectorProduct A t n = symmetricMatrixVectorProduct B t n ∧
    symmetricMatrixVectorProductUpdate A t n = symmetricMatrixVectorProductUpdate B t n ∧
    symmetricMatrixProduct A t n = symmetricMatrixProduct B t n
  hermitianIndependent : ∀ B, SameTriangle t n A B →
    hermitianMatrixVectorProduct A t n = hermitianMatrixVectorProduct B t n ∧
    hermitianMatrixVectorProductUpdate A t n = hermitianMatrixVectorProductUpdate B t n ∧
    hermitianMatrixProduct A t n = hermitianMatrixProduct B t n
  transposed :
    symmetricMatrixVectorProduct A t n =
      symmetricMatrixVectorProduct (fun p => A p.swap) t.other n ∧
    symmetricMatrixVectorProductUpdate A t n =
      symmetricMatrixVectorProductUpdate (fun p => A p.swap) t.other n ∧
    symmetricMatrixProduct A t n = symmetricMatrixProduct (fun p => A p.swap) t.other n
  conjTransposed :
    hermitianMatrixVectorProduct A t n =
      hermitianMatrixVectorProduct (fun p => star (A p.swap)) t.other n ∧
    hermitianMatrixVectorProductUpdate A t n =
      hermitianMatrixVectorProductUpdate (fun p => star (A p.swap)) t.other n ∧
    hermitianMatrixProduct A t n =
      hermitianMatrixProduct (fun p => star (A p.swap)) t.other n

/-- The products read one triangle and are the products with the mirrored matrix. -/
theorem mirrored_products (A : ℕ × ℕ → R) (t : Triangle) (n : ℕ) : MirroredProducts A t n where
  symmetric := symmetric_products A t n
  hermitian := hermitian_products A t n
  symmetricIndependent B h := (symmetric_products A t n).unique (symmetric_products B t n)
    fun _ hi _ hj => symmetricOf_congr h hi hj
  hermitianIndependent B h := (hermitian_products A t n).unique (hermitian_products B t n)
    fun _ hi _ hj => hermitianOf_congr h hi hj
  transposed := (symmetric_products A t n).unique (symmetric_products _ t.other n)
    fun _ _ _ _ => by rw [symmetricOf_transpose]
  conjTransposed := (hermitian_products A t n).unique (hermitian_products _ t.other n)
    fun _ _ _ _ => by rw [hermitianOf_conjTranspose]

end

end CCForge.Linalg
