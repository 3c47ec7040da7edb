import CCForge.Linalg.Arithmetic
import CCForge.Linalg.Norms

/-!
# The square sum of integers

`vector_two_norm` and `matrix_frob_norm` of integers with an integral result add the squares in a
`std::uintmax_t` as long as the sum stays within `2^53`, where `double` is exact. Beside it they keep
the recurrence for floating point numbers, which gives the norm of larger values.

The operations of `double` are a parameter.
-/

namespace CCForge.Linalg

/-- The operations of `double`. -/
structure DoubleOps (Double : Type) where
  zero : Double
  one : Double
  ofInt : ℤ → Double
  abs : Double → Double
  sqrt : Double → Double
  add : Double → Double → Double
  mul : Double → Double → Double
  div : Double → Double → Double
  lt : Double → Double → Bool
  eq : Double → Double → Bool

/-- A value of an integral type. -/
structure Integer where
  type : IndexType
  value : ℤ
  bits : 0 < type.width
  held : type.Holds value

variable {Double : Type}

/-- `__update_scaled_sum_of_squares`: the new `scale` and `scaled_sum`. -/
def updateScaledSumOfSquares (F : DoubleOps Double) (magnitude scale scaledSum : Double) :
    Double × Double :=
  if F.eq magnitude F.zero then (scale, scaledSum)
  else if F.lt scale magnitude then
    let ratio := F.div scale magnitude
    (magnitude, F.add F.one (F.mul (F.mul scaledSum ratio) ratio))
  else if F.eq scale magnitude then (scale, F.add scaledSum F.one)
  else
    let ratio := F.div magnitude scale
    (scale, F.add scaledSum (F.mul ratio ratio))

/-- `__integral_norm_accumulator`. -/
structure IntegralNormAccumulator (Double : Type) where
  sum : ℤ
  withinBudget : Bool
  scale : Double
  scaledSum : Double
  deriving DecidableEq, Repr

namespace IntegralNormAccumulator

/-- `__budget`. -/
def budget : ℤ := 2 ^ 53

def initial (F : DoubleOps Double) : IntegralNormAccumulator Double := ⟨0, true, F.zero, F.one⟩

/-- The check before the multiplication. -/
def exceeds (A : Arithmetic) (sum term : ℤ) : Option Bool :=
  if term = 0 then some false
  else do
    let room ← A.sub uintmax budget sum
    let quotient ← A.div uintmax room term
    some (term > quotient)

/-- The part of `__add` after the recurrence: the new `__sum` and `__within_budget`. -/
def addSquare (A : Arithmetic) (E : IndexType) (value sum : ℤ) (withinBudget : Bool) :
    Option (ℤ × Bool) :=
  if ¬withinBudget then some (sum, withinBudget)
  else do
    let magnitude ← absIfNeeded E value
    if magnitude > budget then some (sum, false)
    else
      -- A type wider than `uintmax_t` has no larger magnitude left here.
      let term ← A.convert uintmax magnitude
      let exceeded ← exceeds A sum term
      if exceeded then some (sum, false)
      else
        let square ← A.mul uintmax term term
        let sum ← A.add uintmax sum square
        some (sum, withinBudget)

/-- `__add`. -/
def add (A : Arithmetic) (F : DoubleOps Double) (acc : IntegralNormAccumulator Double)
    (input : Integer) : Option (IntegralNormAccumulator Double) := do
  let (scale, scaledSum) :=
    updateScaledSumOfSquares F (F.abs (F.ofInt input.value)) acc.scale acc.scaledSum
  let (sum, withinBudget) ← addSquare A input.type input.value acc.sum acc.withinBudget
  return ⟨sum, withinBudget, scale, scaledSum⟩

/-- `__norm`. -/
def norm (F : DoubleOps Double) (acc : IntegralNormAccumulator Double) : Double :=
  if acc.withinBudget then F.sqrt (F.ofInt acc.sum) else F.mul acc.scale (F.sqrt acc.scaledSum)

/-- The calls of `__add` for some values in turn. -/
def addAll (A : Arithmetic) (F : DoubleOps Double) (inputs : List Integer)
    (acc : IntegralNormAccumulator Double) : Option (IntegralNormAccumulator Double) :=
  inputs.foldlM (add A F) acc

end IntegralNormAccumulator

/-- The norm that `vector_two_norm` and `matrix_frob_norm` convert to the result. -/
def integralNorm (A : Arithmetic) (F : DoubleOps Double) (init : Integer) (elements : List Integer) :
    Option Double := do
  let accumulator ← IntegralNormAccumulator.addAll A F (init :: elements) (.initial F)
  return accumulator.norm F

/-! ## The mathematical sum -/

def sumOfSquares (inputs : List Integer) : ℤ := (inputs.map fun input => input.value ^ 2).sum

/-- The recurrence for some values in turn. -/
def scaledSums (F : DoubleOps Double) (inputs : List Integer) (start : Double × Double) :
    Double × Double :=
  inputs.foldl (fun state input =>
    updateScaledSumOfSquares F (F.abs (F.ofInt input.value)) state.1 state.2) start

/-- The norm by the recurrence alone. -/
def scaledNorm (F : DoubleOps Double) (inputs : List Integer) : Double :=
  let state := scaledSums F inputs (F.zero, F.one)
  F.mul state.1 (F.sqrt state.2)

namespace IntegralNormAccumulator

/-- The accumulator has the sum `total` while it is within the budget. -/
structure Tracks (total sum : ℤ) (withinBudget : Bool) : Prop where
  within : withinBudget = true ↔ total ≤ budget
  exact : withinBudget = true → sum = total

variable {F : DoubleOps Double} {E : IndexType} {acc : IntegralNormAccumulator Double}
  {input : Integer} {inputs : List Integer} {value total sum term : ℤ} {withinBudget : Bool}

theorem budget_le_uintmax : budget ≤ uintmax.max := by decide

/-- The division decides whether the square fits into what is left of the budget. -/
theorem exceeds_eq {A : Arithmetic} (h0 : 0 ≤ sum) (hsum : sum ≤ budget) (hterm : 0 ≤ term) :
    exceeds A sum term = some (decide (budget < sum + term * term)) := by
  have hmax := budget_le_uintmax
  unfold exceeds
  by_cases hzero : term = 0
  · subst hzero
    rw [if_pos rfl, decide_eq_false (by omega)]
  rw [if_neg hzero, Arithmetic.sub_of_nonneg hsum (by omega), Option.bind_eq_bind, Option.bind_some,
    Arithmetic.div_of_pos (by omega) (by omega) (by omega), Option.bind_some]
  have hiff : term ≤ (budget - sum) / term ↔ term * term ≤ budget - sum :=
    Int.le_ediv_iff_mul_le (by omega)
  refine congrArg some (decide_eq_decide.mpr ?_)
  rw [gt_iff_lt, ← not_le, hiff]
  omega

/-- A magnitude is not above its square. -/
theorem natAbs_le_sq (value : ℤ) : (value.natAbs : ℤ) ≤ value ^ 2 := by
  rw [← Int.natAbs_sq, sq]
  exact_mod_cast Nat.le_mul_self value.natAbs

theorem Tracks.exceeded (h : budget < total) (sum : ℤ) : Tracks total sum false where
  within := iff_of_false Bool.false_ne_true (by omega)
  exact := fun hin => absurd hin Bool.false_ne_true

/-- One call keeps the state in step with the sum. -/
theorem addSquare_tracks (hE : 0 < E.width) (h : E.Holds value) (h0 : 0 ≤ total)
    (ht : Tracks total sum withinBudget) :
    ∃ sum' within', (∀ A, addSquare A E value sum withinBudget = some (sum', within')) ∧
      Tracks (total + value ^ 2) sum' within' := by
  have hsq : (value.natAbs : ℤ) * value.natAbs = value ^ 2 := by rw [← sq, Int.natAbs_sq]
  have hle := natAbs_le_sq value
  have hmax := budget_le_uintmax
  cases withinBudget with
  | false =>
    have hover : ¬total ≤ budget := fun hin => Bool.false_ne_true (ht.within.mpr hin)
    exact ⟨sum, false, fun _ => rfl, .exceeded (by omega) sum⟩
  | true =>
    obtain rfl := ht.exact rfl
    have hsum := ht.within.mp rfl
    have hmagnitude : ∀ A, addSquare A E value sum true = _ := fun A => by
      rw [addSquare, if_neg (by simp), absIfNeeded_eq hE h, Option.bind_eq_bind, Option.bind_some]
    -- a magnitude above the budget has a square above it
    by_cases hlarge : (value.natAbs : ℤ) > budget
    · refine ⟨sum, false, fun A => ?_, .exceeded (by omega) sum⟩
      rw [hmagnitude, if_pos hlarge]
    have hterm : ∀ A, addSquare A E value sum true = _ := fun A => by
      rw [hmagnitude, if_neg hlarge, Arithmetic.convert_of_nonneg (by decide) (by omega) (by omega),
        Option.bind_some, exceeds_eq h0 hsum (by omega), Option.bind_eq_bind, Option.bind_some, hsq]
    by_cases hover : budget < sum + value ^ 2
    · refine ⟨sum, false, fun A => ?_, .exceeded hover sum⟩
      rw [hterm, if_pos (decide_eq_true hover)]
    · refine ⟨sum + value ^ 2, true, fun A => ?_, ⟨iff_of_true rfl (by omega), fun _ => rfl⟩⟩
      rw [hterm, if_neg (by simpa using hover), Arithmetic.mul_of_nonneg (by omega) (by omega),
        Option.bind_some, hsq, Arithmetic.add_of_nonneg (by omega) (by omega), Option.bind_some]

theorem add_eq {sum' : ℤ} {within' : Bool}
    (h : ∀ A, addSquare A input.type input.value acc.sum acc.withinBudget = some (sum', within')) :
    ∃ acc', (∀ A, add A F acc input = some acc') ∧ acc'.sum = sum' ∧ acc'.withinBudget = within' ∧
      (acc'.scale, acc'.scaledSum) = scaledSums F [input] (acc.scale, acc.scaledSum) := by
  refine ⟨⟨sum', within', _, _⟩, fun A => ?_, rfl, rfl, rfl⟩
  rw [add, h]
  rfl

theorem sumOfSquares_cons : sumOfSquares (input :: inputs) = input.value ^ 2 + sumOfSquares inputs := by
  simp [sumOfSquares]

theorem addAll_cons {A : Arithmetic} :
    addAll A F (input :: inputs) acc = (add A F acc input).bind (addAll A F inputs) :=
  List.foldlM_cons

/-- Every run keeps the state in step with the sum of the squares, and the recurrence goes on. -/
theorem addAll_tracks (F : DoubleOps Double) (inputs : List Integer) (h0 : 0 ≤ total)
    (ht : Tracks total acc.sum acc.withinBudget) :
    ∃ acc', (∀ A, addAll A F inputs acc = some acc') ∧
      Tracks (total + sumOfSquares inputs) acc'.sum acc'.withinBudget ∧
      (acc'.scale, acc'.scaledSum) = scaledSums F inputs (acc.scale, acc.scaledSum) := by
  induction inputs generalizing total acc with
  | nil => exact ⟨acc, fun _ => rfl, by rwa [sumOfSquares, List.map_nil, List.sum_nil, Int.add_zero], rfl⟩
  | cons input inputs ih =>
    obtain ⟨_, _, hsquare, ht'⟩ := addSquare_tracks input.bits input.held h0 ht
    obtain ⟨next, hadd, rfl, rfl, hnext⟩ := add_eq (F := F) hsquare
    obtain ⟨acc', hrun, htotal, hscale⟩ := ih (Int.add_nonneg h0 (sq_nonneg input.value)) ht'
    refine ⟨acc', fun A => ?_, ?_, ?_⟩
    · rw [addAll_cons, hadd, Option.bind_some, hrun]
    · rwa [sumOfSquares_cons, ← Int.add_assoc]
    · rw [hscale, hnext]
      rfl

theorem tracks_initial (F : DoubleOps Double) : Tracks 0 (initial F).sum (initial F).withinBudget where
  within := iff_of_true rfl (by decide)
  exact := fun _ => rfl

/-- From an exceeded budget there is no way back, whatever the sum is. -/
theorem addAll_exceeded (h : acc.withinBudget = false) :
    ∃ acc', (∀ A, addAll A F inputs acc = some acc') ∧ acc'.withinBudget = false := by
  induction inputs generalizing acc with
  | nil => exact ⟨acc, fun _ => rfl, h⟩
  | cons input inputs ih =>
    have hsquare : ∀ A, addSquare A input.type input.value acc.sum acc.withinBudget =
        some (acc.sum, false) := fun A => by rw [addSquare, h]; rfl
    obtain ⟨next, hadd, -, hexceeded, -⟩ := add_eq (F := F) hsquare
    obtain ⟨acc', hrun, hexceeded'⟩ := ih hexceeded
    exact ⟨acc', fun A => by rw [addAll_cons, hadd, Option.bind_some, hrun], hexceeded'⟩

/-- A sequence of calls ends within the budget exactly where the sum of the squares is at most `2^53`,
which is then `__sum`. It ends in one state in every arithmetic, so nothing wraps. An exceeded budget
stays exceeded. -/
theorem square_budget_sharp (F : DoubleOps Double) (inputs : List Integer) :
    ∃ acc, (∀ A, addAll A F inputs (initial F) = some acc) ∧
      (acc.withinBudget = true ↔ (inputs.map fun input => input.value ^ 2).sum ≤ 2 ^ 53) ∧
      (acc.withinBudget = true → acc.sum = (inputs.map fun input => input.value ^ 2).sum) ∧
      (acc.withinBudget = false → ∀ further, ∃ acc', (∀ A, addAll A F further acc = some acc') ∧
        acc'.withinBudget = false) := by
  obtain ⟨acc, hrun, ht, -⟩ := addAll_tracks F inputs le_rfl (tracks_initial F)
  rw [Int.zero_add] at ht
  exact ⟨acc, hrun, ht.within, ht.exact, fun h _ => addAll_exceeded h⟩

end IntegralNormAccumulator

/-- The norm is the root of the exact sum within the budget and the one of the recurrence beyond it. -/
theorem integralNorm_eq (A : Arithmetic) (F : DoubleOps Double) (init : Integer)
    (elements : List Integer) :
    integralNorm A F init elements =
      some (if sumOfSquares (init :: elements) ≤ IntegralNormAccumulator.budget then
        F.sqrt (F.ofInt (sumOfSquares (init :: elements)))
      else scaledNorm F (init :: elements)) := by
  obtain ⟨acc, hrun, ht, hscale⟩ := IntegralNormAccumulator.addAll_tracks F (init :: elements) le_rfl
    (IntegralNormAccumulator.tracks_initial F)
  rw [Int.zero_add] at ht
  rw [integralNorm, hrun, Option.bind_eq_bind, Option.bind_some]
  refine congrArg some ?_
  unfold IntegralNormAccumulator.norm scaledNorm
  by_cases hin : acc.withinBudget = true
  · rw [if_pos hin, if_pos (ht.within.mp hin), ht.exact hin]
  · rw [if_neg hin, if_neg (mt ht.within.mpr hin)]
    change (acc.scale, acc.scaledSum) = scaledSums F (init :: elements) (F.zero, F.one) at hscale
    rw [← hscale]

end CCForge.Linalg
