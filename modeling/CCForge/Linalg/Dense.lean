import CCForge.Lib.Loops
import Mathlib.Algebra.BigOperators.Ring.Finset

/-!
# Dense products

A vector is a function of its index and a matrix a function of the pair of its indices. A
function of the library that writes its last operand is a function of what it held before.
Accumulators are values of the element type and start at zero.
-/

namespace CCForge.Linalg

open CCForge.Loops

universe u

variable {R : Type u}

section
variable [NonUnitalNonAssocSemiring R] (m n k : ℕ) (A B : ℕ × ℕ → R) (x y : ℕ → R)

/-- `matrix_vector_product` of an `m` by `n` matrix, without the SIMD path. -/
def matrixVectorProduct (z : ℕ → R) : ℕ → R :=
  forUp 0 m (fun i z =>
    Function.update z i (forUp 0 n (fun j sum => sum + A (i, j) * x j) 0)) z

/-- `matrix_product` of an `m` by `k` and a `k` by `n` matrix. -/
def matrixProduct (C : ℕ × ℕ → R) : ℕ × ℕ → R :=
  forUp 0 m (fun i C => forUp 0 n (fun j C =>
    Function.update C (i, j) (forUp 0 k (fun l sum => sum + A (i, l) * B (l, j)) 0)) C) C

/-- The product of a matrix with `n` columns and a vector. -/
def mulVec (i : ℕ) : R := ∑ j ∈ Finset.range n, A (i, j) * x j

/-- The product of a matrix with `k` columns and a matrix. -/
def mul (p : ℕ × ℕ) : R := ∑ l ∈ Finset.range k, A (p.1, l) * B (l, p.2)

end

/-- A loop that writes every element of a vector. -/
theorem forUp_update (n : ℕ) (f : ℕ → R) (z : ℕ → R) (i : ℕ) :
    forUp 0 n (fun i z => Function.update z i (f i)) z i = if i < n then f i else z i := by
  have hvisits : (List.range' 0 n).map id = List.range' 0 n := List.map_id _
  change (List.range' 0 n).foldl (write id fun i _ => f i) z i = _
  split
  · rename_i h
    have hnodup : ((List.range' 0 n).map id).Nodup := by
      rw [hvisits]
      exact List.nodup_range' 1
    exact foldl_write hnodup (by rw [List.mem_range'_1]; omega)
  · rename_i h
    refine foldl_write_frame ?_
    rw [hvisits, List.mem_range'_1]
    omega

/-- A nest of loops that writes every entry of a matrix. -/
theorem forUp_update_entries (m n : ℕ) (f : ℕ × ℕ → R) (C : ℕ × ℕ → R) (p : ℕ × ℕ) :
    forUp 0 m (fun i C => forUp 0 n (fun j C => Function.update C (i, j) (f (i, j))) C) C p =
      if p.1 < m ∧ p.2 < n then f p else C p := by
  obtain ⟨i, j⟩ := p
  rw [forUp_nest (fun _ => 0) (fun _ => n)]
  change (nest m (fun _ => 0) fun _ => n).foldl (write id fun p _ => f p) C (i, j) = _
  split
  · rename_i h
    have hnodup : ((nest m (fun _ => 0) fun _ => n).map id).Nodup := by
      rw [List.map_id]
      exact nodup_nest m _ _
    exact foldl_write hnodup (mem_nest.mpr ⟨h.1, Nat.zero_le j, h.2⟩)
  · rename_i h
    refine foldl_write_frame ?_
    rw [List.map_id, mem_nest]
    exact fun hmem => h ⟨hmem.1, hmem.2.2⟩

section
variable [NonUnitalNonAssocSemiring R] {m n k : ℕ} {A B : ℕ × ℕ → R} {x : ℕ → R}

theorem forUp_sum (n : ℕ) (f : ℕ → R) :
    forUp 0 n (fun j sum => sum + f j) 0 = ∑ j ∈ Finset.range n, f j := by
  rw [forUp_add, zero_add, Finset.range_eq_Ico]

theorem matrixVectorProduct_eq (z : ℕ → R) (i : ℕ) :
    matrixVectorProduct m n A x z i = if i < m then mulVec n A x i else z i := by
  simp only [matrixVectorProduct, forUp_sum]
  exact forUp_update m (mulVec n A x) z i

theorem matrixProduct_eq (C : ℕ × ℕ → R) (p : ℕ × ℕ) :
    matrixProduct m n k A B C p = if p.1 < m ∧ p.2 < n then mul k A B p else C p := by
  simp only [matrixProduct, forUp_sum]
  exact forUp_update_entries m n (mul k A B) C p

end

end CCForge.Linalg
