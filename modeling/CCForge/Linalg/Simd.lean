import CCForge.Linalg.IndexType
import Mathlib.Algebra.Order.Ring.Abs
import Mathlib.Algebra.BigOperators.Group.List.Basic

/-!
# The SIMD paths of the linear algebra functions

`copy`, `scale`, `dot`, `vector_abs_sum` and `matrix_vector_product` have a path for contiguous
arrays that takes `kN` elements at a time, as long as a whole block is left, and the rest one
by one. The index is a variable of the extents' `index_type`.

An array is a list. An access outside it has no value. The loops take fuel, so that a run that
does not end has no value either.
-/

namespace CCForge.Linalg

universe u

namespace Simd

variable {σ ρ R : Type u}

/-! ## Arrays -/

def load (xs : List R) (i : ℤ) : Option R :=
  if 0 ≤ i then xs[i.toNat]? else none

def store (xs : List R) (i : ℤ) (v : R) : Option (List R) :=
  if 0 ≤ i ∧ i < xs.length then some (xs.set i.toNat v) else none

/-- A `basic_vec` of the elements from `i` on. -/
def loadLanes (xs : List R) (i : ℤ) : ℕ → Option (List R)
  | 0 => some []
  | k + 1 => do
    let v ← load xs i
    let vs ← loadLanes xs (i + 1) k
    return v :: vs

/-- `for (j = 0; j < kN; ++j) dst[i + j] = v[j];` -/
def storeLanes (xs : List R) (i : ℤ) : List R → Option (List R)
  | [] => some xs
  | v :: vs => do
    let xs ← store xs i v
    storeLanes xs (i + 1) vs

/-- `std::simd::reduce`. -/
def reduce [Add R] [Zero R] : List R → R
  | [] => 0
  | v :: vs => vs.foldl (fun result w => result + w) v

/-! ## Loops -/

/-- `for (; i + static_cast<index_type>(kN) <= n; i += kN) body(i);` -/
def blockLoop (T : IndexType) (kN n : ℕ) (body : ℤ → σ → Option σ) :
    ℕ → ℤ → σ → Option (ℤ × σ)
  | 0, _, _ => none
  | fuel + 1, i, s =>
    (T.promoted.add i (T.convert kN)).bind fun last =>
      if last ≤ n then do
        let s ← body i s
        blockLoop T kN n body fuel (T.convert (i + kN)) s
      else
        some (i, s)

/-- `for (; i < n; ++i) body(i);` -/
def tailLoop (T : IndexType) (n : ℕ) (body : ℤ → σ → Option σ) : ℕ → ℤ → σ → Option σ
  | 0, _, _ => none
  | fuel + 1, i, s =>
    if i < n then do
      let s ← body i s
      tailLoop T n body fuel (T.convert (i + 1)) s
    else
      some s

/-- The blocked loop and the scalar loop over what it leaves. -/
def simdLoop (T : IndexType) (kN n : ℕ) (block tail : ℤ → σ → Option σ) (fuel : ℕ) (s : σ) :
    Option σ := do
  let (i, s) ← blockLoop T kN n block fuel 0 s
  tailLoop T n tail fuel i s

/-- `for (index_type i = 0; i < n; ++i) body(i);` -/
def scalarLoop (T : IndexType) (n : ℕ) (body : ℤ → σ → Option σ) (fuel : ℕ) (s : σ) :
    Option σ :=
  tailLoop T n body fuel 0 s

/-! ## The functions -/

/-- The indices that the loops touch, in order. -/
def accesses (T : IndexType) (kN n : ℕ) (fuel : ℕ) : Option (List ℤ) :=
  simdLoop T kN n (fun i log => some (log ++ (List.range kN).map fun (j : ℕ) => i + j))
    (fun i log => some (log ++ [i])) fuel []

/-- `to[i] = from[i]`. -/
def copyElement (src : List R) (i : ℤ) (dst : List R) : Option (List R) := do
  let v ← load src i
  store dst i v

def copyBlock (kN : ℕ) (src : List R) (i : ℤ) (dst : List R) : Option (List R) := do
  let v ← loadLanes src i kN
  storeLanes dst i v

def copySimd (T : IndexType) (kN : ℕ) (src dst : List R) (fuel : ℕ) : Option (List R) :=
  simdLoop T kN src.length (copyBlock kN src) (copyElement src) fuel dst

def copyScalar (T : IndexType) (src dst : List R) (fuel : ℕ) : Option (List R) :=
  scalarLoop T src.length (copyElement src) fuel dst

/-- `px[i] = alpha * px[i]`. -/
def scaleElement [Mul R] (alpha : R) (i : ℤ) (x : List R) : Option (List R) := do
  let v ← load x i
  store x i (alpha * v)

def scaleBlock [Mul R] (kN : ℕ) (alpha : R) (i : ℤ) (x : List R) : Option (List R) := do
  let v ← loadLanes x i kN
  storeLanes x i (v.map fun lane => alpha * lane)

def scaleSimd [Mul R] (T : IndexType) (kN : ℕ) (alpha : R) (x : List R) (fuel : ℕ) :
    Option (List R) :=
  simdLoop T kN x.length (scaleBlock kN alpha) (scaleElement alpha) fuel x

def scaleScalar [Mul R] (T : IndexType) (alpha : R) (x : List R) (fuel : ℕ) :
    Option (List R) :=
  scalarLoop T x.length (scaleElement alpha) fuel x

section
variable [NonUnitalNonAssocSemiring R]

/-- `acc += px[i] * py[i]`. -/
def dotElement (x y : List R) (i : ℤ) (acc : R) : Option R := do
  let v ← load x i
  let w ← load y i
  return acc + v * w

def dotBlock (kN : ℕ) (x y : List R) (i : ℤ) (acc : R) : Option R := do
  let vx ← loadLanes x i kN
  let vy ← loadLanes y i kN
  return acc + reduce (List.zipWith (fun v w => v * w) vx vy)

def dotSimd (T : IndexType) (kN : ℕ) (x y : List R) (init : R) (fuel : ℕ) : Option R :=
  if x.length = 0 then some init
  else do
    let acc ← simdLoop T kN x.length (dotBlock kN x y) (dotElement x y) fuel 0
    return init + acc

/-- `__dot_numeric_sum`. The sum starts with the first product. -/
def dotNumericSum (T : IndexType) (x y : List R) (init : R) (fuel : ℕ) : Option R := do
  let sum ← dotElement x y 0 init
  tailLoop T x.length (dotElement x y) fuel 1 sum

def dotScalar (T : IndexType) (x y : List R) (init : R) (fuel : ℕ) : Option R :=
  if x.length = 0 then some init
  else dotNumericSum T x y init fuel

/-- One row of `matrix_vector_product` and the store of its sum. -/
def productRow (sum : List R → Option R) (A : List (List R)) (i : ℤ) (y : List R) :
    Option (List R) := do
  let row ← load A i
  let sum ← sum row
  store y i sum

def matrixVectorProductSimd (T : IndexType) (kN : ℕ) (A : List (List R)) (x y : List R)
    (fuel : ℕ) : Option (List R) :=
  scalarLoop T A.length
    (productRow (fun row => simdLoop T kN x.length (dotBlock kN row x) (dotElement row x) fuel 0) A)
    fuel y

def matrixVectorProductScalar (T : IndexType) (A : List (List R)) (x y : List R) (fuel : ℕ) :
    Option (List R) :=
  scalarLoop T A.length
    (productRow (fun row => scalarLoop T x.length (dotElement row x) fuel 0) A) fuel y

end

section
variable [Ring R] [LinearOrder R]

/-- The magnitude of one lane: `v[j] < ElemT{} ? -v[j] : v[j]`. -/
def absLane (v : R) : R := if v < 0 then -v else v

/-- `acc += __abs_if_needed(px[i])`. -/
def absElement (x : List R) (i : ℤ) (acc : R) : Option R := do
  let v ← load x i
  return acc + |v|

def absBlock (kN : ℕ) (x : List R) (i : ℤ) (acc : R) : Option R := do
  let v ← loadLanes x i kN
  return acc + reduce (v.map absLane)

def vectorAbsSumSimd (T : IndexType) (kN : ℕ) (x : List R) (fuel : ℕ) : Option R :=
  simdLoop T kN x.length (absBlock kN x) (absElement x) fuel 0

def vectorAbsSumScalar (T : IndexType) (x : List R) (fuel : ℕ) : Option R :=
  scalarLoop T x.length (absElement x) fuel 0

end

/-- Both ways end, with the same value. -/
def SameResult (simd scalar : ℕ → Option ρ) : Prop :=
  ∃ r bound, ∀ fuel, bound ≤ fuel → simd fuel = some r ∧ scalar fuel = some r

end Simd

open Simd

/-- For extent `n` the SIMD path of every function touches each index once, and no other, and
gives what the scalar path gives. -/
structure SimdEqualsScalar (T : IndexType) (kN n : ℕ) : Prop where
  accesses : ∃ bound, ∀ fuel, bound ≤ fuel →
    Simd.accesses T kN n fuel = some ((List.range n).map Nat.cast)
  copy : ∀ {R : Type u} (src dst : List R), src.length = n → dst.length = n →
    SameResult (copySimd T kN src dst) (copyScalar T src dst)
  scale : ∀ {R : Type u} [Mul R] (alpha : R) (x : List R), x.length = n →
    SameResult (scaleSimd T kN alpha x) (scaleScalar T alpha x)
  dot : ∀ {R : Type u} [NonUnitalNonAssocSemiring R] (x y : List R) (init : R),
    x.length = n → y.length = n → SameResult (dotSimd T kN x y init) (dotScalar T x y init)
  vectorAbsSum : ∀ {R : Type u} [Ring R] [LinearOrder R] [IsOrderedRing R] (x : List R),
    x.length = n → SameResult (vectorAbsSumSimd T kN x) (vectorAbsSumScalar T x)
  matrixVectorProduct : ∀ {R : Type u} [NonUnitalNonAssocSemiring R] (A : List (List R))
    (x y : List R), A.length ≤ T.max → (∀ row ∈ A, row.length = n) → x.length = n →
    y.length = A.length →
    SameResult (matrixVectorProductSimd T kN A x y) (matrixVectorProductScalar T A x y)

/-- The end of the block that starts where the whole blocks end lies beyond `n`, as the code
computes it, and the promoted index type represents it. -/
def LastBlockFits (T : IndexType) (kN n : ℕ) : Prop :=
  let last : ℤ := (n - n % kN : ℕ) + T.convert kN
  n < last ∧ last ≤ T.promoted.max

instance (T : IndexType) (kN n : ℕ) : Decidable (LastBlockFits T kN n) :=
  inferInstanceAs (Decidable (_ ∧ _))

end CCForge.Linalg
