import CCForge.Linalg.IndexType

/-!
# Arithmetic that does not wrap

An arithmetic gives the exact result of an operator or a conversion wherever the type holds it, and
anything, or nothing, elsewhere. A computation with one value in every arithmetic never leaves its
types: one of the arithmetics has no value there, another wraps as the language does.
-/

namespace CCForge.Linalg

/-- The operators and the conversions of the integral types. Only the results that the types hold
are known. -/
structure Arithmetic where
  result : IndexType → ℤ → Option ℤ
  convert : IndexType → ℤ → Option ℤ
  result_of_holds : ∀ {T : IndexType} {x : ℤ}, T.Holds x → result T x = some x
  convert_of_holds : ∀ {T : IndexType} {x : ℤ}, 0 < T.width → T.Holds x → convert T x = some x

namespace Arithmetic

/-- The arithmetic of the language. -/
def machine : Arithmetic where
  result := IndexType.result
  convert T x := some (T.convert x)
  result_of_holds := IndexType.result_of_holds
  convert_of_holds hT h := congrArg some (IndexType.convert_of_holds hT h)

/-- The arithmetic that stops at a result that the type does not hold. -/
def checked : Arithmetic where
  result T x := if T.Holds x then some x else none
  convert T x := if T.Holds x then some x else none
  result_of_holds h := if_pos h
  convert_of_holds _ h := if_pos h

section
variable (A : Arithmetic) (T : IndexType) (x y : ℤ)

def add : Option ℤ := A.result T (x + y)

def sub : Option ℤ := A.result T (x - y)

def mul : Option ℤ := A.result T (x * y)

/-- Division truncates. There is none by zero. -/
def div : Option ℤ := if y = 0 then none else A.result T (x.tdiv y)

/-- The remainder. -/
def rem : Option ℤ := if y = 0 then none else A.result T (x.tmod y)

end

variable {A : Arithmetic} {T : IndexType} {x y : ℤ}

theorem convert_of_nonneg (hT : 0 < T.width) (h0 : 0 ≤ x) (h : x ≤ T.max) : A.convert T x = some x :=
  A.convert_of_holds hT (IndexType.holds_of_nonneg h0 h)

theorem add_of_nonneg (h0 : 0 ≤ x + y) (h : x + y ≤ T.max) : A.add T x y = some (x + y) :=
  A.result_of_holds (IndexType.holds_of_nonneg h0 h)

theorem sub_of_nonneg (h0 : y ≤ x) (h : x - y ≤ T.max) : A.sub T x y = some (x - y) :=
  A.result_of_holds (IndexType.holds_of_nonneg (Int.sub_nonneg_of_le h0) h)

theorem mul_of_nonneg (h0 : 0 ≤ x * y) (h : x * y ≤ T.max) : A.mul T x y = some (x * y) :=
  A.result_of_holds (IndexType.holds_of_nonneg h0 h)

/-- A quotient is not above its dividend. -/
theorem div_of_pos (h0 : 0 ≤ x) (h : x ≤ T.max) (hy : 0 < y) : A.div T x y = some (x / y) := by
  rw [div, if_neg hy.ne', Int.tdiv_eq_ediv_of_nonneg h0]
  exact A.result_of_holds
    (IndexType.holds_of_nonneg (Int.ediv_nonneg h0 hy.le) ((Int.ediv_le_self y h0).trans h))

/-- A remainder is not above its dividend. -/
theorem rem_of_pos (h0 : 0 ≤ x) (h : x ≤ T.max) (hy : 0 < y) : A.rem T x y = some (x % y) := by
  have hle : x % y ≤ x := by
    have hquotient := Int.mul_nonneg hy.le (Int.ediv_nonneg h0 hy.le)
    have hdivision := Int.mul_ediv_add_emod x y
    omega
  rw [rem, if_neg hy.ne', Int.tmod_eq_emod_of_nonneg h0]
  exact A.result_of_holds (IndexType.holds_of_nonneg (Int.emod_nonneg x hy.ne') (hle.trans h))

end Arithmetic

end CCForge.Linalg
