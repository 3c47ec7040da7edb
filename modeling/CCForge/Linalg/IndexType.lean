import Mathlib.Data.Int.Notation
import Mathlib.Algebra.Order.Ring.Int
import Mathlib.Tactic.Common

/-!
# Index arithmetic

An `index_type` is an integral type of any width. An arithmetic operator first promotes its
operands: a type narrower than `int` becomes `int`. A result that the promoted type cannot
represent wraps if the type is unsigned and is undefined behaviour if it is signed. Storing
a value in a variable of the type converts it, which wraps.
-/

namespace CCForge.Linalg

/-- An integral type of the language. -/
structure IndexType where
  width : ℕ
  signed : Bool
  deriving DecidableEq, Repr

namespace IndexType

/-- `int`. -/
def int : IndexType := ⟨32, true⟩

/-- `numeric_limits::max()`. -/
def max (T : IndexType) : ℕ :=
  if T.signed then 2 ^ (T.width - 1) - 1 else 2 ^ T.width - 1

/-- `numeric_limits::min()`. -/
def min (T : IndexType) : ℤ :=
  if T.signed then -2 ^ (T.width - 1) else 0

/-- The value is one of the type's. -/
def Holds (T : IndexType) (x : ℤ) : Prop := T.min ≤ x ∧ x ≤ T.max

instance (T : IndexType) (x : ℤ) : Decidable (T.Holds x) :=
  inferInstanceAs (Decidable (_ ∧ _))

/-- The type of an operand after integral promotion. -/
def promoted (T : IndexType) : IndexType :=
  if T.width < int.width then int else T

/-- The value of an operator whose exact result is `x`. There is none where the behaviour is
undefined. -/
def result (T : IndexType) (x : ℤ) : Option ℤ :=
  if T.Holds x then some x
  else if T.signed then none
  else some (x % 2 ^ T.width)

def add (T : IndexType) (x y : ℤ) : Option ℤ := T.result (x + y)

def sub (T : IndexType) (x y : ℤ) : Option ℤ := T.result (x - y)

def mul (T : IndexType) (x y : ℤ) : Option ℤ := T.result (x * y)

/-- Division by a positive constant. It truncates. -/
def div (T : IndexType) (x y : ℤ) : Option ℤ := T.result (x.tdiv y)

/-- The remainder. It has the sign of the dividend. -/
def rem (T : IndexType) (x y : ℤ) : Option ℤ := T.result (x.tmod y)

/-- Negation. -/
def neg (T : IndexType) (x : ℤ) : Option ℤ := T.result (-x)

/-- `make_unsigned_t`. -/
def makeUnsigned (T : IndexType) : IndexType := ⟨T.width, false⟩

/-- `common_type_t`. Types of one width count as one rank, where both orders give the same values. -/
def commonType (T S : IndexType) : IndexType :=
  if T = S then T
  else if T.promoted.signed = S.promoted.signed then
    if T.promoted.width < S.promoted.width then S.promoted else T.promoted
  else if T.promoted.signed then
    if T.promoted.width ≤ S.promoted.width then S.promoted else T.promoted
  else if S.promoted.width ≤ T.promoted.width then T.promoted else S.promoted

/-- The value of type `T` congruent to `x`. -/
def convert (T : IndexType) (x : ℤ) : ℤ :=
  if T.signed then x.bmod (2 ^ T.width) else x % 2 ^ T.width

variable {T : IndexType} {x y : ℤ}

theorem min_nonpos (T : IndexType) : T.min ≤ 0 := by
  unfold min
  split
  · exact Int.neg_nonpos_of_nonneg (Int.pow_nonneg (by decide))
  · exact le_rfl

theorem holds_of_nonneg (h0 : 0 ≤ x) (h : x ≤ T.max) : T.Holds x :=
  ⟨T.min_nonpos.trans h0, h⟩

theorem result_of_holds (h : T.Holds x) : T.result x = some x := if_pos h

theorem result_of_nonneg (h0 : 0 ≤ x) (h : x ≤ T.max) : T.result x = some x :=
  result_of_holds (holds_of_nonneg h0 h)

theorem div_two (h0 : 0 ≤ x) (h : x ≤ T.max) : T.div x 2 = some (x / 2) := by
  rw [div, Int.tdiv_eq_ediv_of_nonneg h0]
  exact result_of_nonneg (by omega) (by omega)

theorem max_unsigned (h : T.signed = false) : (T.max : ℤ) + 1 = 2 ^ T.width := by
  have hpos : 0 < 2 ^ T.width := Nat.two_pow_pos T.width
  rw [max, h, if_neg Bool.false_ne_true]
  push_cast [Nat.one_le_two_pow]
  omega

theorem max_signed (h : T.signed = true) : (T.max : ℤ) + 1 = 2 ^ (T.width - 1) := by
  rw [max, h, if_pos rfl]
  push_cast [Nat.one_le_two_pow]
  omega

/-- A promoted type represents every value of the type. -/
theorem max_le_promoted (T : IndexType) : T.max ≤ T.promoted.max := by
  unfold promoted
  split
  · rename_i h
    have hle : 2 ^ T.width ≤ 2 ^ 31 := Nat.pow_le_pow_right (by decide) (Nat.le_of_lt_succ h)
    have hle' : 2 ^ (T.width - 1) ≤ 2 ^ 31 :=
      Nat.pow_le_pow_right (by decide) (by have := Nat.le_of_lt_succ h; omega)
    have hint : int.max = 2 ^ 31 - 1 := rfl
    rw [hint]
    unfold max
    split <;> omega
  · exact le_rfl

/-- The largest value of an unsigned type depends on its width alone. -/
theorem max_le_unsigned {S : IndexType} (h : T.width ≤ S.width) : T.max ≤ S.makeUnsigned.max := by
  have hpow : 2 ^ T.width ≤ 2 ^ S.width := Nat.pow_le_pow_right (by decide) h
  have hpow' : 2 ^ (T.width - 1) ≤ 2 ^ T.width := Nat.pow_le_pow_right (by decide) (Nat.sub_le _ _)
  have hmax : S.makeUnsigned.max = 2 ^ S.width - 1 := rfl
  rw [hmax]
  unfold max
  split <;> omega

/-- The unsigned counterpart of a common type represents the nonnegative values of both types. -/
theorem max_le_common (T S : IndexType) :
    T.max ≤ (T.commonType S).makeUnsigned.max ∧ S.max ≤ (T.commonType S).makeUnsigned.max := by
  unfold commonType
  split
  · rename_i h
    exact ⟨max_le_unsigned le_rfl, h ▸ max_le_unsigned le_rfl⟩
  · refine ⟨(max_le_promoted T).trans (max_le_unsigned ?_), (max_le_promoted S).trans (max_le_unsigned ?_)⟩
    all_goals split_ifs <;> omega

theorem one_le_promoted_max (T : IndexType) : 1 ≤ T.promoted.max := by
  unfold promoted
  split
  · decide
  · rename_i h
    have hle : 2 ^ 1 ≤ 2 ^ (T.width - 1) :=
      Nat.pow_le_pow_right (by decide) (by have := Nat.le_of_not_lt h; simp only [int] at this; omega)
    have hle' : 2 ^ 1 ≤ 2 ^ T.width :=
      hle.trans (Nat.pow_le_pow_right (by decide) (Nat.sub_le _ _))
    unfold max
    split <;> omega

/-- The difference `0 - 1` has a value, whatever it is. -/
theorem sub_one_isSome (T : IndexType) : ∃ y, T.sub 0 1 = some y := by
  unfold sub result
  split
  · exact ⟨_, rfl⟩
  · rename_i hout
    cases hs : T.signed with
    | false => exact ⟨_, rfl⟩
    | true =>
      have hpow : (0 : ℤ) < 2 ^ (T.width - 1) := Int.pow_pos (by decide)
      refine absurd ⟨?_, by omega⟩ hout
      rw [min, hs, if_pos rfl]
      omega

theorem convert_of_nonneg (h0 : 0 ≤ x) (h : x ≤ T.max) : T.convert x = x := by
  cases hs : T.signed with
  | true =>
    have hmax := max_signed hs
    have htwice : x * 2 < (2 ^ T.width : ℕ) := by
      push_cast
      cases hw : T.width with
      | zero => rw [hw] at hmax; simp only [Nat.zero_sub, pow_zero] at hmax ⊢; omega
      | succ w => rw [hw, Nat.add_sub_cancel] at hmax; rw [pow_succ]; omega
    rw [convert, hs, if_pos rfl]
    exact Int.bmod_eq_of_le_mul_two (by omega) htwice
  | false =>
    have hmax := max_unsigned hs
    rw [convert, hs, if_neg Bool.false_ne_true]
    exact Int.emod_eq_of_lt h0 (by omega)

theorem min_signed (h : T.signed = true) : T.min = -2 ^ (T.width - 1) := by
  rw [min, h, if_pos rfl]

theorem min_unsigned (h : T.signed = false) : T.min = 0 := by
  rw [min, h, if_neg Bool.false_ne_true]

theorem Holds.promoted (h : T.Holds x) : T.promoted.Holds x := by
  refine ⟨?_, h.2.trans (by exact_mod_cast T.max_le_promoted)⟩
  unfold IndexType.promoted
  split
  · rename_i hw
    refine le_trans ?_ h.1
    have hpow : 2 ^ (T.width - 1) ≤ 2 ^ 31 :=
      Nat.pow_le_pow_right (by decide) (by simp only [int] at hw; omega)
    have hpow' : (2 : ℤ) ^ (T.width - 1) ≤ 2 ^ 31 := by exact_mod_cast hpow
    have hint : int.min = -2 ^ 31 := rfl
    rw [hint, min]
    split <;> omega
  · exact h.1

theorem promoted_result_of_holds (h : T.Holds x) : T.promoted.result x = some x :=
  result_of_holds h.promoted

/-- A type with a bit stores its own values unchanged. -/
theorem convert_of_holds (hT : 0 < T.width) (h : T.Holds x) : T.convert x = x := by
  obtain ⟨hlo, hhi⟩ := h
  by_cases h0 : 0 ≤ x
  · exact convert_of_nonneg h0 hhi
  · cases hs : T.signed with
    | false =>
      rw [min_unsigned hs] at hlo
      exact absurd hlo h0
    | true =>
      rw [min_signed hs] at hlo
      have htwice : (2 : ℤ) ^ T.width = 2 ^ (T.width - 1) * 2 := by
        rw [← pow_succ, Nat.sub_add_cancel hT]
      have hpos : (0 : ℤ) < 2 ^ (T.width - 1) := Int.pow_pos (by decide)
      rw [convert, hs, if_pos rfl]
      exact Int.bmod_eq_of_le_mul_two (by push_cast; omega) (by push_cast; omega)

theorem holds_convert (hT : 0 < T.width) (x : ℤ) : T.Holds (T.convert x) := by
  cases hs : T.signed with
  | true =>
    have hmax := max_signed hs
    have htwice : (2 : ℤ) ^ T.width = 2 * 2 ^ (T.width - 1) := by
      rw [Int.mul_comm, ← pow_succ, Nat.sub_add_cancel hT]
    have hpos : 0 < 2 ^ T.width := Nat.two_pow_pos T.width
    have hlo := Int.le_bmod (x := x) hpos
    have hhi := Int.bmod_lt (x := x) hpos
    push_cast at hlo hhi
    rw [Holds, min_signed hs, convert, hs, if_pos rfl]
    constructor <;> omega
  | false =>
    have hmax := max_unsigned hs
    have hpos : (0 : ℤ) < 2 ^ T.width := Int.pow_pos (by decide)
    have hlo := Int.emod_nonneg x hpos.ne'
    have hhi := Int.emod_lt_of_pos x hpos
    rw [Holds, min_unsigned hs, convert, hs, if_neg Bool.false_ne_true]
    constructor <;> omega

/-- Conversion keeps the value modulo the number of values of the type. -/
theorem convert_emod (T : IndexType) (x : ℤ) : T.convert x % 2 ^ T.width = x % 2 ^ T.width := by
  unfold convert
  split
  · have h := Int.bmod_emod (x := x) (m := 2 ^ T.width)
    push_cast at h
    exact h
  · exact Int.emod_emod_of_dvd x dvd_rfl

/-- The converted value is the only one of the type that is congruent to `x`. -/
theorem convert_eq_of_emod (hT : 0 < T.width) (hy : T.Holds y) (h : y % 2 ^ T.width = x % 2 ^ T.width) :
    T.convert x = y := by
  have hsame : T.convert x = T.convert y := by
    unfold convert
    have hbmod : x.bmod (2 ^ T.width) = y.bmod (2 ^ T.width) := by
      rw [← Int.emod_bmod, ← Int.emod_bmod (n := 2 ^ T.width) (x := y)]
      push_cast
      rw [h]
    rw [hbmod, h]
  rw [hsame, convert_of_holds hT hy]

/-- Converting through a type that is at least as wide makes no difference. -/
theorem convert_convert {S : IndexType} (hS : 0 < S.width) (h : S.width ≤ T.width) (x : ℤ) :
    S.convert (T.convert x) = S.convert x := by
  have hdvd : (2 : ℤ) ^ S.width ∣ 2 ^ T.width := pow_dvd_pow 2 h
  refine convert_eq_of_emod hS (holds_convert hS x) ?_
  rw [convert_emod, ← Int.emod_emod_of_dvd x hdvd, ← Int.emod_emod_of_dvd (T.convert x) hdvd,
    convert_emod]

end IndexType

end CCForge.Linalg
