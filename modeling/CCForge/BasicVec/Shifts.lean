import CCForge.BasicVec.Lanes
import CCForge.Linalg.IndexType
import Mathlib.Data.Int.ModEq
import Mathlib.Data.Rat.Floor
import Mathlib.Data.Fin.VecNotation

/-!
# shl and shr

The shift count of a lane may have any sign and any size. The functions take its magnitude in the
unsigned counterpart of its type and handle the counts that no operator accepts on their own.

An operator without a value is undefined behaviour.
-/

namespace CCForge.BasicVec

open CCForge.Linalg (IndexType)
open CCForge.Loops (tryUp)

/-- `<<` of an operand of type `P`: the shifted value modulo the number of values of the type. -/
def shiftLeft (P : IndexType) (x : ℤ) (amount : ℕ) : Option ℤ :=
  if amount < P.width then some (P.convert (x * 2 ^ amount)) else none

/-- `>>` rounds down. -/
def shiftRight (P : IndexType) (x : ℤ) (amount : ℕ) : Option ℤ :=
  if amount < P.width then some (x / 2 ^ amount) else none

/-- `unsigned`. -/
def unsignedInt : IndexType := ⟨32, false⟩

/-- `shift_magnitude`. -/
def shiftMagnitude (S : IndexType) (shift : ℤ) : Option ℤ :=
  let U := S.makeUnsigned
  if S.signed ∧ shift < 0 then do
    let next ← S.promoted.add shift 1
    let opposite ← S.promoted.neg next
    let magnitude ← U.promoted.add (U.convert opposite) 1
    return U.convert magnitude
  else some (U.convert shift)

/-- `shift_left_scalar`. -/
def shiftLeftScalar (T S : IndexType) (value shift : ℤ) : Option ℤ := do
  let U := T.makeUnsigned
  let digits := unsignedInt.convert U.width
  let magnitude ← shiftMagnitude S shift
  if magnitude ≥ S.makeUnsigned.convert digits then
    if S.signed ∧ shift < 0 then
      if T.signed then some (if value < 0 then -1 else 0) else some 0
    else some 0
  else
    let amount := (unsignedInt.convert magnitude).toNat
    if S.signed ∧ shift < 0 then (shiftRight T.promoted value amount).map T.convert
    else (shiftLeft U.promoted (U.convert value) amount).map T.convert

/-- `shift_right_scalar`. -/
def shiftRightScalar (T S : IndexType) (value shift : ℤ) : Option ℤ := do
  let U := T.makeUnsigned
  let digits := unsignedInt.convert U.width
  let magnitude ← shiftMagnitude S shift
  if magnitude ≥ S.makeUnsigned.convert digits then
    if S.signed ∧ shift < 0 then some 0
    else if T.signed then some (if value < 0 then -1 else 0)
    else some 0
  else
    let amount := (unsignedInt.convert magnitude).toNat
    if S.signed ∧ shift < 0 then (shiftLeft U.promoted (U.convert value) amount).map T.convert
    else (shiftRight T.promoted value amount).map T.convert

section
variable {n : ℕ}

/-- `shl` with a vector of counts. -/
def shl (T S : IndexType) (value shift : Vec ℤ n) : Option (Vec ℤ n) :=
  tryUp n (fun i result => (do
    let v ← lane value i
    let s ← lane shift i
    shiftLeftScalar T S v s).bind (setLane result i)) default

/-- `shl` with one count. -/
def shlScalar (T S : IndexType) (value : Vec ℤ n) (shift : ℤ) : Option (Vec ℤ n) :=
  tryUp n (fun i result => (do
    let v ← lane value i
    shiftLeftScalar T S v shift).bind (setLane result i)) default

/-- `shr` with a vector of counts. -/
def shr (T S : IndexType) (value shift : Vec ℤ n) : Option (Vec ℤ n) :=
  tryUp n (fun i result => (do
    let v ← lane value i
    let s ← lane shift i
    shiftRightScalar T S v s).bind (setLane result i)) default

/-- `shr` with one count. -/
def shrScalar (T S : IndexType) (value : Vec ℤ n) (shift : ℤ) : Option (Vec ℤ n) :=
  tryUp n (fun i result => (do
    let v ← lane value i
    shiftRightScalar T S v shift).bind (setLane result i)) default

end

/-! ## The exact shift -/

/-- `x` times `2 ^ s` rounded down. -/
def scaled (x s : ℤ) : ℤ := ⌊(x : ℚ) * 2 ^ s⌋

section
variable {T S : IndexType} {x s : ℤ}

theorem scaled_of_nonneg (h : 0 ≤ s) : scaled x s = x * 2 ^ s.toNat := by
  obtain ⟨k, rfl⟩ := Int.eq_ofNat_of_zero_le h
  have hcast : (x : ℚ) * 2 ^ (k : ℤ) = ((x * 2 ^ k : ℤ) : ℚ) := by push_cast; rfl
  rw [scaled, hcast, Int.floor_intCast]
  rfl

theorem scaled_of_neg (h : s < 0) : scaled x s = x / 2 ^ (-s).toNat := by
  obtain ⟨k, hk⟩ := Int.eq_ofNat_of_zero_le (show 0 ≤ -s by omega)
  have hs : s = -(k : ℤ) := by omega
  have hcast : (x : ℚ) * 2 ^ s = (x : ℚ) / ((2 ^ k : ℕ) : ℚ) := by
    rw [hs, zpow_neg, zpow_natCast, ← div_eq_mul_inv]
    push_cast
    rfl
  rw [scaled, hcast, Rat.floor_intCast_div_natCast, hk]
  push_cast
  rfl

/-- The magnitude is exact, also that of the most negative count. -/
theorem shiftMagnitude_eq (hS : 0 < S.width) (h : S.Holds s) :
    shiftMagnitude S s = some (s.natAbs : ℤ) := by
  unfold shiftMagnitude
  have hmax := IndexType.max_unsigned (T := S.makeUnsigned) rfl
  have hwidth : S.makeUnsigned.width = S.width := rfl
  rw [hwidth] at hmax
  have htwice : (2 : ℤ) ^ S.width = 2 ^ (S.width - 1) * 2 := by
    rw [← pow_succ, Nat.sub_add_cancel hS]
  obtain ⟨hlo, hhi⟩ := h
  split
  · rename_i hneg
    obtain ⟨hs, hneg⟩ := hneg
    have hmin := IndexType.min_signed hs
    have hmax' := IndexType.max_signed hs
    -- the code negates `s + 1`, which has a counterpart also where `s` is the least value
    have hnext : S.Holds (s + 1) := ⟨by omega, by omega⟩
    have hopposite : S.Holds (-(s + 1)) := IndexType.holds_of_nonneg (by omega) (by omega)
    have hone : S.makeUnsigned.Holds (-(s + 1) + 1) :=
      IndexType.holds_of_nonneg (by omega) (by omega)
    simp only [IndexType.add, IndexType.neg, IndexType.promoted_result_of_holds hnext,
      IndexType.promoted_result_of_holds hopposite, Option.bind_eq_bind, Option.bind_some]
    rw [IndexType.convert_of_nonneg (x := -(s + 1)) (by omega) (by omega),
      IndexType.promoted_result_of_holds hone, Option.bind_some,
      IndexType.convert_of_holds (by exact hS) hone]
    congr 1
    omega
  · rename_i hpos
    have h0 : 0 ≤ s := by
      cases hs : S.signed with
      | true =>
        simp only [hs, true_and] at hpos
        omega
      | false =>
        rw [IndexType.min_unsigned hs] at hlo
        exact hlo
    have hle : s ≤ (S.makeUnsigned.max : ℕ) := by
      cases hs : S.signed with
      | true =>
        have hmax' := IndexType.max_signed hs
        omega
      | false =>
        have hmax' := IndexType.max_unsigned hs
        omega
    show some (S.makeUnsigned.convert s) = _
    rw [IndexType.convert_of_nonneg h0 hle, Int.natAbs_of_nonneg h0]

/-- What a count leaves that is at least the width. -/
theorem convert_scaled_large (hT : 0 < T.width) (hx : T.Holds x) (h : T.width ≤ s.natAbs) :
    T.convert (scaled x s) = if s < 0 ∧ x < 0 then -1 else 0 := by
  have hzero : T.Holds 0 := IndexType.holds_of_nonneg le_rfl (Int.natCast_nonneg _)
  by_cases hs : s < 0
  · rw [scaled_of_neg hs]
    have hpow : (2 : ℤ) ^ T.width ≤ 2 ^ (-s).toNat :=
      pow_le_pow_right₀ (by decide) (by omega)
    have hpos : (0 : ℤ) < 2 ^ T.width := Int.pow_pos (by decide)
    have htwice : (2 : ℤ) ^ T.width = 2 ^ (T.width - 1) * 2 := by
      rw [← pow_succ, Nat.sub_add_cancel hT]
    obtain ⟨hlo, hhi⟩ := hx
    by_cases hneg : x < 0
    · have hsigned : T.signed = true := by
        by_contra hn
        rw [IndexType.min_unsigned (by simpa using hn)] at hlo
        omega
      have hmin := IndexType.min_signed hsigned
      -- the floor of a negative fraction above -1
      have hquot : x / 2 ^ (-s).toNat = -1 := by
        rw [Int.ediv_eq_iff_of_pos (by omega)]
        omega
      have hholds : T.Holds (-1) := ⟨by omega, by omega⟩
      rw [hquot, if_pos ⟨hs, hneg⟩, IndexType.convert_of_holds hT hholds]
    · have hlt : x < 2 ^ T.width := by
        cases hsigned : T.signed with
        | true =>
          have hmax := IndexType.max_signed hsigned
          omega
        | false =>
          have hmax := IndexType.max_unsigned hsigned
          omega
      rw [Int.ediv_eq_zero_of_lt (by omega) (by omega), if_neg fun hn => hneg hn.2,
        IndexType.convert_of_holds hT hzero]
  · rw [scaled_of_nonneg (by omega), if_neg fun hn => hs hn.1]
    refine IndexType.convert_eq_of_emod hT hzero ?_
    -- all bits leave the lane on the left
    have hdvd : (2 : ℤ) ^ T.width ∣ x * 2 ^ s.toNat :=
      Dvd.dvd.mul_left (pow_dvd_pow 2 (by omega)) x
    rw [Int.zero_emod, Int.emod_eq_zero_of_dvd hdvd]

theorem width_le_promoted (T : IndexType) : T.width ≤ T.promoted.width := by
  unfold IndexType.promoted
  split
  · rename_i h
    exact h.le
  · exact le_rfl

/-- The promoted operand may be wider, which its own width undoes. -/
theorem shiftLeft_promoted {amount : ℕ} (hT : 0 < T.width) (h : amount < T.width) :
    (shiftLeft T.makeUnsigned.promoted (T.makeUnsigned.convert x) amount).map T.convert =
      some (T.convert (x * 2 ^ amount)) := by
  have hle : T.width ≤ T.makeUnsigned.promoted.width := width_le_promoted T.makeUnsigned
  rw [shiftLeft, if_pos (by omega), Option.map_some, IndexType.convert_convert hT hle]
  congr 1
  refine IndexType.convert_eq_of_emod hT (IndexType.holds_convert hT _) ?_
  -- the lane and its unsigned counterpart agree modulo 2 ^ width, and so do their products
  have hemod := IndexType.convert_emod T.makeUnsigned x
  have hwidth : T.makeUnsigned.width = T.width := rfl
  rw [hwidth] at hemod
  rw [IndexType.convert_emod, Int.mul_emod, ← hemod, ← Int.mul_emod]

theorem shiftRight_promoted {amount : ℕ} (h : amount < T.width) :
    (shiftRight T.promoted x amount).map T.convert = some (T.convert (x / 2 ^ amount)) := by
  rw [shiftRight, if_pos (lt_of_lt_of_le h (width_le_promoted T)), Option.map_some]

/-- The width of the lane in the type of the counts. -/
theorem convert_digits (hw : T.width < 2 ^ 32) (h : T.width < 2 ^ S.width) :
    S.makeUnsigned.convert (unsignedInt.convert T.makeUnsigned.width) = (T.width : ℤ) := by
  have hmax := IndexType.max_unsigned (T := S.makeUnsigned) rfl
  have hmax' := IndexType.max_unsigned (T := unsignedInt) rfl
  have hlt : (T.width : ℤ) < 2 ^ S.width := by exact_mod_cast h
  have hlt' : (T.width : ℤ) < 2 ^ 32 := by exact_mod_cast hw
  simp only [unsignedInt, IndexType.makeUnsigned] at hmax hmax' ⊢
  rw [IndexType.convert_of_nonneg (T := ⟨32, false⟩) (by omega) (by omega),
    IndexType.convert_of_nonneg (by omega) (by omega)]

theorem convert_amount {k : ℕ} (hw : T.width < 2 ^ 32) (h : k < T.width) :
    (unsignedInt.convert k).toNat = k := by
  have hmax : (unsignedInt.max : ℤ) = 2 ^ 32 - 1 := rfl
  have hlt : (T.width : ℤ) < 2 ^ 32 := by exact_mod_cast hw
  rw [IndexType.convert_of_nonneg (by omega) (by omega), Int.toNat_natCast]

/-- An unsigned count is not negative. -/
theorem neg_count_iff (h : S.Holds s) : (S.signed = true ∧ s < 0) ↔ s < 0 := by
  refine ⟨fun hn => hn.2, fun hn => ⟨?_, hn⟩⟩
  by_contra hs
  have hlo := h.1
  rw [IndexType.min_unsigned (by simpa using hs)] at hlo
  omega

theorem sign_fill (hx : T.Holds x) :
    (if T.signed then some (if x < 0 then -1 else 0) else some 0 : Option ℤ) =
      some (if x < 0 then -1 else 0) := by
  split
  · rfl
  · rename_i hs
    have hlo := hx.1
    rw [IndexType.min_unsigned (by simpa using hs)] at hlo
    rw [if_neg (by omega)]

theorem shiftLeftScalar_eq (hT : 0 < T.width) (hw : T.width < 2 ^ 32) (hS : 0 < S.width)
    (hd : T.width < 2 ^ S.width) (hx : T.Holds x) (hs : S.Holds s) :
    shiftLeftScalar T S x s = some (T.convert (scaled x s)) := by
  unfold shiftLeftScalar
  simp only [shiftMagnitude_eq hS hs, Option.bind_eq_bind, Option.bind_some, convert_digits hw hd,
    neg_count_iff hs]
  split
  · rename_i hlarge
    rw [convert_scaled_large hT hx (by omega)]
    split
    · rename_i hneg
      rw [sign_fill hx]
      simp [hneg]
    · rename_i hneg
      simp [hneg]
  · rw [convert_amount hw (k := s.natAbs) (by omega)]
    split
    · rename_i hneg
      rw [shiftRight_promoted (by omega), scaled_of_neg hneg, show (-s).toNat = s.natAbs by omega]
    · rename_i hneg
      rw [shiftLeft_promoted hT (by omega), scaled_of_nonneg (by omega),
        show s.toNat = s.natAbs by omega]

theorem shiftRightScalar_eq (hT : 0 < T.width) (hw : T.width < 2 ^ 32) (hS : 0 < S.width)
    (hd : T.width < 2 ^ S.width) (hx : T.Holds x) (hs : S.Holds s) :
    shiftRightScalar T S x s = some (T.convert (scaled x (-s))) := by
  unfold shiftRightScalar
  simp only [shiftMagnitude_eq hS hs, Option.bind_eq_bind, Option.bind_some, convert_digits hw hd,
    neg_count_iff hs]
  split
  · rename_i hlarge
    rw [convert_scaled_large hT hx (by omega)]
    split
    · rename_i hneg
      rw [if_neg (by omega)]
    · rename_i hneg
      rw [sign_fill hx]
      have hne : s ≠ 0 := by
        rintro rfl
        simp at hlarge
        omega
      congr 1
      split <;> split <;> omega
  · rw [convert_amount hw (k := s.natAbs) (by omega)]
    split
    · rename_i hneg
      rw [shiftLeft_promoted hT (by omega), scaled_of_nonneg (by omega),
        show (-s).toNat = s.natAbs by omega]
    · rename_i hneg
      rw [shiftRight_promoted (by omega)]
      by_cases hzero : s = 0
      · subst hzero
        simp [scaled_of_nonneg]
      · rw [scaled_of_neg (by omega), show (- -s).toNat = s.natAbs by omega]

/-! ## What the shifts are -/

/-- `r` is the value of type `T` that is congruent to `x` times `2 ^ s` rounded down. -/
def IsShifted (T : IndexType) (x s r : ℤ) : Prop :=
  T.Holds r ∧ r ≡ ⌊(x : ℚ) * 2 ^ s⌋ [ZMOD 2 ^ T.width]

theorem isShifted_convert (hT : 0 < T.width) : IsShifted T x s (T.convert (scaled x s)) :=
  ⟨IndexType.holds_convert hT _, IndexType.convert_emod T _⟩

section
variable {n : ℕ} {value shift : Vec ℤ n}

theorem shl_eq (hT : 0 < T.width) (hw : T.width < 2 ^ 32) (hS : 0 < S.width)
    (hd : T.width < 2 ^ S.width) (hvalue : ∀ i, T.Holds (value i)) (hshift : ∀ i, S.Holds (shift i)) :
    shl T S value shift = some fun i => T.convert (scaled (value i) (shift i)) := by
  refine tryUp_setLane fun i => ?_
  simp only [lane_fin, Option.bind_eq_bind, Option.bind_some]
  exact shiftLeftScalar_eq hT hw hS hd (hvalue i) (hshift i)

theorem shlScalar_eq (hT : 0 < T.width) (hw : T.width < 2 ^ 32) (hS : 0 < S.width)
    (hd : T.width < 2 ^ S.width) (hvalue : ∀ i, T.Holds (value i)) (hs : S.Holds s) :
    shlScalar T S value s = some fun i => T.convert (scaled (value i) s) := by
  refine tryUp_setLane fun i => ?_
  simp only [lane_fin, Option.bind_eq_bind, Option.bind_some]
  exact shiftLeftScalar_eq hT hw hS hd (hvalue i) hs

theorem shr_eq (hT : 0 < T.width) (hw : T.width < 2 ^ 32) (hS : 0 < S.width)
    (hd : T.width < 2 ^ S.width) (hvalue : ∀ i, T.Holds (value i)) (hshift : ∀ i, S.Holds (shift i)) :
    shr T S value shift = some fun i => T.convert (scaled (value i) (-shift i)) := by
  refine tryUp_setLane fun i => ?_
  simp only [lane_fin, Option.bind_eq_bind, Option.bind_some]
  exact shiftRightScalar_eq hT hw hS hd (hvalue i) (hshift i)

theorem shrScalar_eq (hT : 0 < T.width) (hw : T.width < 2 ^ 32) (hS : 0 < S.width)
    (hd : T.width < 2 ^ S.width) (hvalue : ∀ i, T.Holds (value i)) (hs : S.Holds s) :
    shrScalar T S value s = some fun i => T.convert (scaled (value i) (-s)) := by
  refine tryUp_setLane fun i => ?_
  simp only [lane_fin, Option.bind_eq_bind, Option.bind_some]
  exact shiftRightScalar_eq hT hw hS hd (hvalue i) hs

end

/-- Every count is accepted: no operator is given an amount that it does not accept and no operation
overflows. -/
theorem shifts_accept_every_count {n : ℕ} {value : Vec ℤ n} (hT : 0 < T.width) (hw : T.width < 2 ^ 32)
    (hS : 0 < S.width) (hd : T.width < 2 ^ S.width) (hvalue : ∀ i, T.Holds (value i)) :
    (∀ shift : Vec ℤ n, (∀ i, S.Holds (shift i)) → ∃ left right,
      shl T S value shift = some left ∧ shr T S value shift = some right ∧
      ∀ i, IsShifted T (value i) (shift i) (left i) ∧
        IsShifted T (value i) (-shift i) (right i)) ∧
    ∀ s, S.Holds s → shlScalar T S value s = shl T S value (fun _ => s) ∧
      shrScalar T S value s = shr T S value fun _ => s := by
  constructor
  · intro shift hshift
    exact ⟨_, _, shl_eq hT hw hS hd hvalue hshift, shr_eq hT hw hS hd hvalue hshift,
      fun i => ⟨isShifted_convert hT, isShifted_convert hT⟩⟩
  · intro s hs
    rw [shlScalar_eq hT hw hS hd hvalue hs, shl_eq hT hw hS hd hvalue fun _ => hs,
      shrScalar_eq hT hw hS hd hvalue hs, shr_eq hT hw hS hd hvalue fun _ => hs]
    exact ⟨rfl, rfl⟩

/-- Signed bytes, with the most negative count. -/
theorem shifts_accept_every_count_bytes :
    ∃ left right, shl ⟨8, true⟩ ⟨8, true⟩ ![-7, 100] ![-128, 1] = some left ∧
      shr ⟨8, true⟩ ⟨8, true⟩ ![-7, 100] ![-128, 1] = some right ∧
      IsShifted ⟨8, true⟩ (-7) (-128) (left 0) ∧ IsShifted ⟨8, true⟩ 100 (-1) (right 1) := by
  obtain ⟨left, right, hleft, hright, hshifted⟩ := (@shifts_accept_every_count ⟨8, true⟩
    ⟨8, true⟩ 2 ![-7, 100] (by decide) (by decide) (by decide) (by decide)
    (by decide)).1 ![-128, 1] (by decide)
  exact ⟨left, right, hleft, hright, (hshifted 0).1, (hshifted 1).2⟩

end

end CCForge.BasicVec
