import CCForge.Linalg.IndexType
import Mathlib.Algebra.BigOperators.Group.Finset.Basic
import Mathlib.Data.Finset.Lattice.Fold
import Mathlib.Algebra.BigOperators.Intervals
import Mathlib.Order.Lattice.Nat

/-!
# Norms of integers

`vector_abs_sum`, `matrix_one_norm` and `matrix_inf_norm` of integers with an integral result add the
magnitudes in a `std::uintmax_t` that stays at its maximum, and then add the sum to `init`, where the
result stays at the maximum of its own type.

An operator without a value is undefined behaviour.
-/

namespace CCForge.Linalg

open IndexType

/-- `std::uintmax_t`. -/
def uintmax : IndexType := ⟨64, false⟩

/-- `__abs_if_needed` of an integer. -/
def absIfNeeded (E : IndexType) (value : ℤ) : Option ℤ :=
  if ¬E.signed then some value
  else
    let unsigned := E.makeUnsigned
    let widened := unsigned.convert value
    if value < 0 then (unsigned.promoted.sub 0 widened).map unsigned.convert
    else some widened

/-- `__saturating_accumulate_magnitude`: the new `total`. -/
def saturatingAccumulateMagnitude (total magnitude : ℤ) : Option ℤ := do
  let term := uintmax.convert magnitude
  let maximum : ℤ := uintmax.max
  let room ← uintmax.sub maximum total
  if term > room then some maximum else uintmax.add total term

/-- `__saturating_add_magnitude`. -/
def saturatingAddMagnitude (T : IndexType) (init magnitude : ℤ) : Option ℤ :=
  if magnitude = 0 then some init
  else if ¬T.signed then do
    let room ← T.promoted.sub T.max init
    if magnitude > uintmax.convert room then some T.max
    else (T.promoted.add init (T.convert magnitude)).map T.convert
  else if init < 0 then do
    let unsigned := T.makeUnsigned
    let difference ← unsigned.promoted.sub 0 (unsigned.convert init)
    -- The conversion to `unsigned` undoes the promotion of a narrow type.
    let distance := uintmax.convert (unsigned.convert difference)
    if magnitude < distance then do
      let remaining ← uintmax.sub distance magnitude
      (T.promoted.neg (T.convert remaining)).map T.convert
    else do
      let magnitude ← uintmax.sub magnitude distance
      if magnitude > uintmax.convert T.max then some T.max else some (T.convert magnitude)
  else do
    let room ← T.promoted.sub T.max init
    if magnitude > uintmax.convert room then some T.max
    else (T.promoted.add init (T.convert magnitude)).map T.convert

/-- The loop that adds the magnitudes of some elements. -/
def magnitudeSum (E : IndexType) (elements : List ℤ) : Option ℤ :=
  elements.foldlM (fun total value => do
    let magnitude ← absIfNeeded E value
    saturatingAccumulateMagnitude total magnitude) 0

/-- The loop that keeps the largest of the sums. -/
def largestSum (E : IndexType) (sums : List (List ℤ)) : Option ℤ :=
  sums.foldlM (fun largest elements => do
    let sum ← magnitudeSum E elements
    if sum > largest then some sum else some largest) 0

def vectorAbsSum (E T : IndexType) (x : List ℤ) (init : ℤ) : Option ℤ := do
  let magnitude ← magnitudeSum E x
  saturatingAddMagnitude T init magnitude

/-- A matrix of the given extents, by its elements. -/
structure Matrix where
  rows : ℕ
  columns : ℕ
  entry : ℕ → ℕ → ℤ

namespace Matrix

def row (A : Matrix) (i : ℕ) : List ℤ := (List.range A.columns).map fun j => A.entry i j

def column (A : Matrix) (j : ℕ) : List ℤ := (List.range A.rows).map fun i => A.entry i j

end Matrix

def matrixOneNorm (E T : IndexType) (A : Matrix) (init : ℤ) : Option ℤ :=
  if A.columns = 0 then some init
  else do
    let maxColSum ← largestSum E ((List.range A.columns).map A.column)
    saturatingAddMagnitude T init maxColSum

def matrixInfNorm (E T : IndexType) (A : Matrix) (init : ℤ) : Option ℤ :=
  if A.rows = 0 then some init
  else do
    let maxRowSum ← largestSum E ((List.range A.rows).map A.row)
    saturatingAddMagnitude T init maxRowSum

/-! ## The mathematical norms -/

/-- `x`, or the bound of the type that it lies beyond. -/
def clampTo (T : IndexType) (x : ℤ) : ℤ := max T.min (min x T.max)

/-- The sum of the magnitudes. -/
def absSum (elements : List ℤ) : ℕ := (elements.map Int.natAbs).sum

/-- The largest of the sums of magnitudes, 0 if there is none. -/
def largestAbsSum (sums : List (List ℤ)) : ℕ := (sums.map absSum).foldr max 0

section
variable {E T : IndexType} {value init total : ℤ} {elements : List ℤ} {sums : List (List ℤ)} {S U : ℕ}

theorem uintmax_max : uintmax.max = 2 ^ 64 - 1 := rfl

theorem uintmax_convert (h0 : 0 ≤ value) (h : value ≤ (uintmax.max : ℕ)) :
    uintmax.convert value = value := convert_of_nonneg h0 h

/-- A bound of a type of at most 64 bits is a `std::uintmax_t`. -/
theorem max_le_uintmax (hT : T.width ≤ 64) : (T.max : ℤ) ≤ uintmax.max := by
  have hle : 2 ^ T.width ≤ 2 ^ 64 := Nat.pow_le_pow_right (by decide) hT
  have hle' : 2 ^ (T.width - 1) ≤ 2 ^ 64 := Nat.pow_le_pow_right (by decide) (by omega)
  rw [uintmax_max]
  unfold IndexType.max
  split <;> omega

/-- The unsigned counterpart represents the magnitude of every value. -/
theorem sub_makeUnsigned (hE : 0 < E.width) (hs : E.signed = true) (h : E.Holds value) (hneg : value < 0) :
    ∃ difference, E.makeUnsigned.promoted.sub 0 (E.makeUnsigned.convert value) = some difference ∧
      E.makeUnsigned.convert difference = -value := by
  have hlo := h.1
  rw [min_signed hs] at hlo
  have htwice : (2 : ℤ) ^ E.width = 2 ^ (E.width - 1) * 2 := by
    rw [← pow_succ, Nat.sub_add_cancel hE]
  have hholds : E.makeUnsigned.Holds (-value) := by
    refine holds_of_nonneg (by omega) ?_
    have hmax := max_unsigned (T := E.makeUnsigned) rfl
    simp only [makeUnsigned] at hmax ⊢
    omega
  -- a negative value converts by one turn of the modulus
  have hwidened : E.makeUnsigned.convert value = value + 2 ^ E.width := by
    refine convert_eq_of_emod hE ?_ (by simp [makeUnsigned])
    refine holds_of_nonneg (by omega) ?_
    have hmax := max_unsigned (T := E.makeUnsigned) rfl
    simp only [makeUnsigned] at hmax ⊢
    omega
  rw [hwidened]
  by_cases hnarrow : E.width < int.width
  · -- The subtraction is done in `int` and gives a negative number.
    have hpow : 2 ^ E.width ≤ 2 ^ 31 := Nat.pow_le_pow_right (by decide) (Nat.le_of_lt_succ hnarrow)
    have hpow' : (2 : ℤ) ^ E.width ≤ 2 ^ 31 := by exact_mod_cast hpow
    have hpromoted : E.makeUnsigned.promoted = int := if_pos hnarrow
    refine ⟨0 - (value + 2 ^ E.width), ?_, ?_⟩
    · rw [hpromoted]
      refine result_of_holds ⟨?_, ?_⟩
      · show (-2 ^ 31 : ℤ) ≤ _
        omega
      · show _ ≤ (2 ^ 31 - 1 : ℤ)
        omega
    · refine convert_eq_of_emod hE hholds ?_
      simp only [makeUnsigned]
      rw [show (0 : ℤ) - (value + 2 ^ E.width) = -value - 2 ^ E.width by omega, Int.sub_emod_right]
  · -- The subtraction wraps.
    have hpromoted : E.makeUnsigned.promoted = E.makeUnsigned := if_neg hnarrow
    have hpos : (0 : ℤ) < 2 ^ E.width := Int.pow_pos (by decide)
    refine ⟨-value, ?_, convert_of_holds hE hholds⟩
    rw [hpromoted, sub, result, if_neg, if_neg (by simp [makeUnsigned])]
    · rw [show (0 : ℤ) - (value + 2 ^ E.width) = -value - 2 ^ E.width by omega]
      simp only [makeUnsigned]
      rw [Int.sub_emod_right, Int.emod_eq_of_lt (by omega) (by omega)]
    · rintro ⟨hlo', -⟩
      rw [min_unsigned rfl] at hlo'
      omega

theorem absIfNeeded_eq (hE : 0 < E.width) (h : E.Holds value) :
    absIfNeeded E value = some (value.natAbs : ℤ) := by
  unfold absIfNeeded
  cases hs : E.signed with
  | false =>
    have hlo := h.1
    rw [min_unsigned hs] at hlo
    rw [if_pos (by simp), Int.natAbs_of_nonneg hlo]
  | true =>
    rw [if_neg (by simp)]
    by_cases hneg : value < 0
    · obtain ⟨difference, hsub, hconvert⟩ := sub_makeUnsigned hE hs h hneg
      simp only [if_pos hneg, hsub, Option.map_some, hconvert]
      rw [Int.ofNat_natAbs_of_nonpos hneg.le]
    · have hhi := h.2
      have hmax := max_signed hs
      have htwice : (2 : ℤ) ^ E.width = 2 ^ (E.width - 1) * 2 := by
        rw [← pow_succ, Nat.sub_add_cancel hE]
      have hmax' := max_unsigned (T := E.makeUnsigned) rfl
      have hwidth : E.makeUnsigned.width = E.width := rfl
      rw [hwidth] at hmax'
      simp only [if_neg hneg]
      rw [convert_of_nonneg (by omega) (by omega), Int.natAbs_of_nonneg (by omega)]

/-- Magnitudes of a type of at most 64 bits are `std::uintmax_t`. -/
theorem natAbs_le_uintmax (hE : 0 < E.width) (hE' : E.width ≤ 64) (h : E.Holds value) :
    (value.natAbs : ℤ) ≤ uintmax.max := by
  have hmax := max_le_uintmax hE'
  have hpow : (2 : ℤ) ^ (E.width - 1) ≤ 2 ^ 63 := by
    exact_mod_cast Nat.pow_le_pow_right (by decide) (show E.width - 1 ≤ 63 by omega)
  obtain ⟨hlo, hhi⟩ := h
  have hmin : -2 ^ 63 ≤ E.min := by
    unfold IndexType.min
    split <;> omega
  rw [uintmax_max] at hmax ⊢
  push_cast at hmax
  omega

/-- The total is the sum, or the maximum if the sum lies beyond. -/
theorem saturatingAccumulateMagnitude_eq {m : ℕ} (h : m ≤ uintmax.max) :
    saturatingAccumulateMagnitude (min S uintmax.max : ℕ) m = some ((min (S + m) uintmax.max : ℕ) : ℤ) := by
  unfold saturatingAccumulateMagnitude
  have hroom : uintmax.sub uintmax.max (min S uintmax.max : ℕ) =
      some ((uintmax.max : ℤ) - (min S uintmax.max : ℕ)) :=
    result_of_nonneg (by omega) (by omega)
  simp only [hroom, Option.bind_eq_bind, Option.bind_some]
  rw [uintmax_convert (by omega) (by exact_mod_cast h)]
  split
  · congr 1
    omega
  · rw [add, result_of_nonneg (by omega) (by omega)]
    congr 1
    omega

theorem magnitudeSum_eq (hE : 0 < E.width) (hE' : E.width ≤ 64) (h : ∀ v ∈ elements, E.Holds v) :
    magnitudeSum E elements = some ((min (absSum elements) uintmax.max : ℕ) : ℤ) := by
  have hrun : ∀ S : ℕ, elements.foldlM (fun total value => do
      let magnitude ← absIfNeeded E value
      saturatingAccumulateMagnitude total magnitude) ((min S uintmax.max : ℕ) : ℤ) =
        some ((min (S + absSum elements) uintmax.max : ℕ) : ℤ) := by
    induction elements with
    | nil => exact fun S => rfl
    | cons v elements ih =>
      intro S
      have hv := h v List.mem_cons_self
      have hle : v.natAbs ≤ uintmax.max := by exact_mod_cast natAbs_le_uintmax hE hE' hv
      rw [List.foldlM_cons, absIfNeeded_eq hE hv]
      simp only [Option.bind_eq_bind, Option.bind_some]
      rw [saturatingAccumulateMagnitude_eq hle, Option.bind_some]
      have hrest := ih (fun w hw => h w (List.mem_cons_of_mem v hw)) (S + v.natAbs)
      simp only [Option.bind_eq_bind] at hrest
      rw [hrest, absSum, absSum, List.map_cons, List.sum_cons, Nat.add_assoc]
  simpa [magnitudeSum] using hrun 0

theorem largestSum_eq (hE : 0 < E.width) (hE' : E.width ≤ 64) (h : ∀ l ∈ sums, ∀ v ∈ l, E.Holds v) :
    largestSum E sums = some ((min (largestAbsSum sums) uintmax.max : ℕ) : ℤ) := by
  have hrun : ∀ S : ℕ, sums.foldlM (fun largest elements => do
      let sum ← magnitudeSum E elements
      if sum > largest then some sum else some largest) ((min S uintmax.max : ℕ) : ℤ) =
        some ((min (max S (largestAbsSum sums)) uintmax.max : ℕ) : ℤ) := by
    induction sums with
    | nil => simp [largestAbsSum]
    | cons l sums ih =>
      intro S
      rw [List.foldlM_cons, magnitudeSum_eq hE hE' (h l List.mem_cons_self)]
      simp only [Option.bind_eq_bind, Option.bind_some]
      -- comparing what was cut off decides as comparing the sums, up to the cut
      have hlarger : (if ((min (absSum l) uintmax.max : ℕ) : ℤ) > (min S uintmax.max : ℕ) then
          some ((min (absSum l) uintmax.max : ℕ) : ℤ) else some ((min S uintmax.max : ℕ) : ℤ)) =
            some ((min (max S (absSum l)) uintmax.max : ℕ) : ℤ) := by
        split <;> congr 1 <;> omega
      have hrest := ih (fun l' hl => h l' (List.mem_cons_of_mem l hl)) (max S (absSum l))
      simp only [Option.bind_eq_bind] at hrest
      rw [hlarger, Option.bind_some, hrest, largestAbsSum, largestAbsSum, List.map_cons,
        List.foldr_cons, max_assoc]
  simpa [largestSum] using hrun 0

/-- Nothing is lost by the first saturation: even with the least `init` it lies beyond the result. -/
theorem clamp_add_min (hT : 0 < T.width) (hT' : T.width ≤ 64) (h : T.Holds init) :
    clampTo T (init + (min S uintmax.max : ℕ)) = clampTo T (init + S) := by
  have hpow : (2 : ℤ) ^ (T.width - 1) ≤ 2 ^ 63 := by
    exact_mod_cast Nat.pow_le_pow_right (by decide) (show T.width - 1 ≤ 63 by omega)
  have hbound : (T.max : ℤ) ≤ init + uintmax.max := by
    obtain ⟨hlo, -⟩ := h
    cases hs : T.signed with
    | true =>
      have hmax := max_signed hs
      rw [min_signed hs] at hlo
      rw [uintmax_max]
      push_cast
      omega
    | false =>
      have hmax := max_le_uintmax hT'
      rw [min_unsigned hs] at hlo
      omega
  unfold clampTo
  omega

theorem saturatingAddMagnitude_eq (hT : 0 < T.width) (hT' : T.width ≤ 64) (h : T.Holds init)
    (hU : U ≤ uintmax.max) : saturatingAddMagnitude T init U = some (clampTo T (init + U)) := by
  have hmax := max_le_uintmax hT'
  have hminmax : T.min ≤ T.max := T.min_nonpos.trans (Int.natCast_nonneg _)
  obtain ⟨hlo, hhi⟩ := h
  unfold saturatingAddMagnitude
  -- A nonnegative `init`, in both branches that have one.
  have hnonneg (h0 : 0 ≤ init) : (T.promoted.sub T.max init).bind (fun room =>
      if (U : ℤ) > uintmax.convert room then some (T.max : ℤ)
      else (T.promoted.add init (T.convert U)).map T.convert) = some (clampTo T (init + U)) := by
    rw [sub, promoted_result_of_holds (holds_of_nonneg (by omega) (by omega)), Option.bind_some,
      uintmax_convert (by omega) (by omega)]
    have hclamp : clampTo T (init + U) = min (init + U) T.max := by
      unfold clampTo
      omega
    rw [hclamp]
    split
    · congr 1
      omega
    · have hsum : T.Holds (init + U) := holds_of_nonneg (by omega) (by omega)
      rw [convert_of_nonneg (by omega) (by omega), add, promoted_result_of_holds hsum, Option.map_some,
        convert_of_holds hT hsum]
      congr 1
      omega
  by_cases hzero : (U : ℤ) = 0
  · rw [if_pos hzero, clampTo]
    congr 1
    omega
  rw [if_neg hzero]
  cases hs : T.signed with
  | false =>
    rw [min_unsigned hs] at hlo
    rw [if_pos (by simp)]
    exact hnonneg hlo
  | true =>
    rw [if_neg (by simp)]
    by_cases hneg : init < 0
    · obtain ⟨difference, hsub, hconvert⟩ := sub_makeUnsigned hT hs ⟨hlo, hhi⟩ hneg
      -- the magnitude of the least `init` is one more than the maximum
      have hwide : T.min = -(T.max + 1) := by rw [min_signed hs, ← max_signed hs]
      have hwidth : (T.max : ℤ) + 1 ≤ uintmax.max := by
        rw [max_signed hs, uintmax_max]
        have hpow : (2 : ℤ) ^ (T.width - 1) ≤ 2 ^ 63 := by
          exact_mod_cast Nat.pow_le_pow_right (by decide) (show T.width - 1 ≤ 63 by omega)
        push_cast
        omega
      simp only [if_pos hneg, hsub, Option.bind_eq_bind, Option.bind_some, hconvert]
      rw [uintmax_convert (show 0 ≤ -init by omega) (by omega)]
      split
      · -- The sum stays negative.
        have hsum : T.Holds (init + U) := ⟨by omega, by omega⟩
        rw [sub, result_of_nonneg (by omega) (by omega), Option.bind_some,
          convert_of_nonneg (by omega) (by omega), neg,
          show -(-init - (U : ℤ)) = init + U by omega, promoted_result_of_holds hsum, Option.map_some,
          convert_of_holds hT hsum, clampTo]
        congr 1
        omega
      · rw [sub, result_of_nonneg (by omega) (by omega), Option.bind_some,
          uintmax_convert (by omega) hmax, clampTo]
        split
        · congr 1
          omega
        · rw [convert_of_nonneg (by omega) (by omega)]
          congr 1
          omega
    · simp only [if_neg hneg]
      exact hnonneg (by omega)

/-! ## What the norms are -/

theorem absSum_perm {other : List ℤ} (h : elements.Perm other) : absSum other = absSum elements :=
  (h.map Int.natAbs).sum_eq.symm

theorem absSum_range (f : ℕ → ℤ) (n : ℕ) :
    absSum ((List.range n).map f) = ∑ i ∈ Finset.range n, (f i).natAbs := by
  rw [absSum, List.map_map]
  rfl

theorem largestAbsSum_range (l : ℕ → List ℤ) (n : ℕ) :
    largestAbsSum ((List.range n).map l) = (Finset.range n).sup fun i => absSum (l i) := by
  have happend (sums other : List (List ℤ)) :
      largestAbsSum (sums ++ other) = max (largestAbsSum sums) (largestAbsSum other) := by
    induction sums with
    | nil => simp [largestAbsSum]
    | cons l sums ih =>
      simp only [largestAbsSum, List.cons_append, List.map_cons, List.foldr_cons] at ih ⊢
      rw [ih, max_assoc]
  induction n with
  | zero => rfl
  | succ n ih =>
    rw [List.range_succ, List.map_append, happend, ih, Finset.range_add_one, Finset.sup_insert, max_comm]
    simp [largestAbsSum]

/-- Without a sum there is nothing to add. -/
theorem largestNorm_eq (hE : 0 < E.width) (hE' : E.width ≤ 64) (hT : 0 < T.width) (hT' : T.width ≤ 64)
    (hinit : T.Holds init) (h : ∀ l ∈ sums, ∀ v ∈ l, E.Holds v) :
    (largestSum E sums).bind (saturatingAddMagnitude T init) =
      some (clampTo T (init + largestAbsSum sums)) := by
  rw [largestSum_eq hE hE' h, Option.bind_some, saturatingAddMagnitude_eq hT hT' hinit (by omega),
    clamp_add_min hT hT' hinit]

theorem clampTo_of_holds (h : T.Holds init) : clampTo T init = init := by
  obtain ⟨hlo, hhi⟩ := h
  unfold clampTo
  omega

/-- The norms are the mathematical ones, cut off at the bounds of the result's type. Nothing wraps
and nothing is undefined. -/
theorem integer_norms_saturate (hE : 0 < E.width) (hE' : E.width ≤ 64) (hT : 0 < T.width)
    (hT' : T.width ≤ 64) (hinit : T.Holds init) :
    (∀ x : List ℤ, (∀ v ∈ x, E.Holds v) →
      vectorAbsSum E T x init = some (clampTo T (init + (x.map Int.natAbs).sum)) ∧
        ∀ y : List ℤ, x.Perm y → vectorAbsSum E T y init = vectorAbsSum E T x init) ∧
    ∀ A : Matrix, (∀ i < A.rows, ∀ j < A.columns, E.Holds (A.entry i j)) →
      matrixOneNorm E T A init = some (clampTo T (init + ((Finset.range A.columns).sup fun j =>
        ∑ i ∈ Finset.range A.rows, (A.entry i j).natAbs : ℕ))) ∧
      matrixInfNorm E T A init = some (clampTo T (init + ((Finset.range A.rows).sup fun i =>
        ∑ j ∈ Finset.range A.columns, (A.entry i j).natAbs : ℕ))) := by
  have hvector (x : List ℤ) (hx : ∀ v ∈ x, E.Holds v) :
      vectorAbsSum E T x init = some (clampTo T (init + absSum x)) := by
    rw [vectorAbsSum, magnitudeSum_eq hE hE' hx]
    simp only [Option.bind_eq_bind, Option.bind_some]
    rw [saturatingAddMagnitude_eq hT hT' hinit (by omega), clamp_add_min hT hT' hinit]
  refine ⟨fun x hx => ⟨hvector x hx, fun y hy => ?_⟩, fun A hA => ⟨?_, ?_⟩⟩
  · rw [hvector x hx, hvector y fun v hv => hx v (hy.mem_iff.mpr hv), absSum_perm hy]
  · unfold matrixOneNorm
    split
    · rename_i hnone
      simp [hnone, clampTo_of_holds hinit]
    · refine (largestNorm_eq hE hE' hT hT' hinit ?_).trans ?_
      · intro l hl v hv
        obtain ⟨j, hj, rfl⟩ := List.mem_map.mp hl
        obtain ⟨i, hi, rfl⟩ := List.mem_map.mp hv
        exact hA i (List.mem_range.mp hi) j (List.mem_range.mp hj)
      · simp only [largestAbsSum_range, Matrix.column, absSum_range]
  · unfold matrixInfNorm
    split
    · rename_i hnone
      simp [hnone, clampTo_of_holds hinit]
    · refine (largestNorm_eq hE hE' hT hT' hinit ?_).trans ?_
      · intro l hl v hv
        obtain ⟨i, hi, rfl⟩ := List.mem_map.mp hl
        obtain ⟨j, hj, rfl⟩ := List.mem_map.mp hv
        exact hA i (List.mem_range.mp hi) j (List.mem_range.mp hj)
      · simp only [largestAbsSum_range, Matrix.row, absSum_range]

/-- Bytes with the least `init`: the magnitude of -128 is 128. -/
theorem integer_norms_saturate_bytes :
    vectorAbsSum ⟨8, true⟩ ⟨8, true⟩ [-128, 127, -128] (-128) = some 127 ∧
      matrixOneNorm ⟨8, true⟩ ⟨8, true⟩ ⟨1, 1, fun _ _ => -128⟩ (-128) = some 0 := by
  have hnorms := @integer_norms_saturate ⟨8, true⟩ ⟨8, true⟩ (-128) (by decide)
    (by decide) (by decide) (by decide) (by decide)
  refine ⟨(hnorms.1 [-128, 127, -128] (by decide)).1, ?_⟩
  refine (hnorms.2 ⟨1, 1, fun _ _ => -128⟩ fun i _ j _ => ?_).1
  show IndexType.Holds ⟨8, true⟩ (-128)
  decide

end

end CCForge.Linalg
