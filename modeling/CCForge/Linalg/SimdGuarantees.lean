import CCForge.Linalg.Simd

/-!
# When the SIMD paths equal the scalar paths

A block body does what the element body does on its elements one by one. So the blocked loop
and the rest are the scalar loop, provided that the loop condition is right for every block,
and that depends on the last one alone.
-/

namespace CCForge.Linalg

universe u

namespace Simd

variable {σ R : Type u} {T : IndexType} {kN n i k : ℕ} {s : σ}

/-- The element body, done for the indices of a list. -/
def runOver (tail : ℤ → σ → Option σ) (is : List ℕ) (s : σ) : Option σ :=
  is.foldlM (fun s (i : ℕ) => tail i s) s

theorem runOver_append {tail : ℤ → σ → Option σ} (is js : List ℕ) :
    runOver tail (is ++ js) s = (runOver tail is s).bind (runOver tail js) :=
  List.foldlM_append

theorem runOver_cons {tail : ℤ → σ → Option σ} (i : ℕ) (is : List ℕ) :
    runOver tail (i :: is) s = (tail i s).bind (runOver tail is) :=
  List.foldlM_cons

/-! ## The loops -/

theorem tailLoop_eq {body : ℤ → σ → Option σ} {fuel : ℕ} (hn : n ≤ T.max) (hi : i ≤ n)
    (hf : n - i < fuel) :
    tailLoop T n body fuel i s = runOver body (List.range' i (n - i)) s := by
  induction fuel generalizing i s with
  | zero => omega
  | succ fuel ih =>
    unfold tailLoop
    by_cases hlt : i < n
    · have hconvert : T.convert ((i : ℤ) + 1) = (i + 1 : ℕ) :=
        IndexType.convert_of_nonneg (by omega) (by omega)
      have hrange : List.range' i (n - i) = i :: List.range' (i + 1) (n - (i + 1)) := by
        rw [← List.range'_succ, show n - (i + 1) + 1 = n - i by omega]
      rw [if_pos (by omega), hconvert, hrange, runOver_cons]
      exact congrArg _ (funext fun s => ih hlt (by omega))
    · rw [if_neg (by omega), show n - i = 0 by omega]
      rfl

theorem scalarLoop_eq {body : ℤ → σ → Option σ} {fuel : ℕ} (hn : n ≤ T.max) (hf : n < fuel) :
    scalarLoop T n body fuel s = runOver body (List.range n) s := by
  rw [scalarLoop, List.range_eq_range']
  exact tailLoop_eq (i := 0) hn (Nat.zero_le n) hf

/-- Where a whole block is left, the lane count is a value of the index type. -/
theorem convert_lanes (hn : n ≤ T.max) (hk : kN ≤ n) : T.convert kN = kN :=
  IndexType.convert_of_nonneg (by omega) (by omega)

/-- The loop condition holds for every whole block. -/
theorem add_lanes (hn : n ≤ T.max) (hi : i + kN ≤ n) :
    T.promoted.add i (T.convert kN) = some (i + kN : ℤ) := by
  have hle := T.max_le_promoted
  rw [convert_lanes hn (by omega)]
  exact IndexType.result_of_nonneg (by omega) (by omega)

/-- The blocked loop does the elements up to where no whole block is left. -/
theorem blockLoop_eq {block tail : ℤ → σ → Option σ} (hn : n ≤ T.max)
    (hfit : LastBlockFits T kN n)
    (hblock : ∀ (i : ℕ) s, i + kN ≤ n → block i s = runOver tail (List.range' i kN) s) (m : ℕ)
    {fuel : ℕ} (hi : i + m * kN = n - n % kN) (hf : m < fuel) :
    blockLoop T kN n block fuel i s =
      (runOver tail (List.range' i (m * kN)) s).map fun s => (((i + m * kN : ℕ) : ℤ), s) := by
  induction m generalizing i s fuel with
  | zero =>
    obtain ⟨fuel, rfl⟩ : ∃ f, fuel = f + 1 := ⟨fuel - 1, by omega⟩
    obtain ⟨hlt, hle⟩ := hfit
    rw [Nat.zero_mul, Nat.add_zero] at hi ⊢
    rw [← hi] at hlt hle
    have hadd : T.promoted.add i (T.convert kN) = some (i + T.convert kN : ℤ) :=
      IndexType.result_of_nonneg (by omega) hle
    rw [blockLoop, hadd, Option.bind_some, if_neg (by omega)]
    rfl
  | succ m ih =>
    obtain ⟨fuel, rfl⟩ : ∃ f, fuel = f + 1 := ⟨fuel - 1, by omega⟩
    rw [Nat.succ_mul] at hi ⊢
    have hwhole : i + kN ≤ n := by omega
    have hconvert : T.convert ((i : ℤ) + kN) = (i + kN : ℕ) :=
      IndexType.convert_of_nonneg (by omega) (by omega)
    have hrange : List.range' i (m * kN + kN) =
        List.range' i kN ++ List.range' (i + kN) (m * kN) := by
      rw [List.range'_append_1, Nat.add_comm]
    have hend : i + (m * kN + kN) = i + kN + m * kN := by omega
    rw [blockLoop, add_lanes hn hwhole, Option.bind_some, if_pos (by omega), hconvert,
      hblock i s hwhole, hrange, runOver_append, Option.map_bind, hend]
    exact congrArg _ (funext fun s => ih (by omega) (by omega))

/-- Where the last block does not fit, the loop condition lets it in if it has a value. -/
theorem last_le {last : ℤ} (hn : n ≤ T.max) (hfit : ¬LastBlockFits T kN n)
    (hadd : T.promoted.add (n - n % kN : ℕ) (T.convert kN) = some last) : last ≤ n := by
  unfold LastBlockFits at hfit
  unfold IndexType.add IndexType.result at hadd
  split at hadd
  · rename_i hholds
    cases hadd
    by_contra hlt
    exact hfit ⟨not_le.mp hlt, hholds.2⟩
  · rename_i hout
    split at hadd
    · cases hadd
    · rename_i hsigned
      -- an unsigned promoted type is the index type itself
      have hsame : T.promoted = T := by
        unfold IndexType.promoted at hsigned ⊢
        split at hsigned
        · exact absurd rfl hsigned
        · rename_i hwide
          exact if_neg hwide
      rw [hsame] at hout hadd hsigned
      have hunsigned : T.signed = false := Bool.eq_false_iff.mpr hsigned
      have hmax := IndexType.max_unsigned hunsigned
      have hconvert : T.convert kN = (kN : ℤ) % 2 ^ T.width := by
        rw [IndexType.convert, hunsigned, if_neg Bool.false_ne_true]
      have hpos : (0 : ℤ) < 2 ^ T.width := Int.pow_pos (by decide)
      have hlanes := Int.emod_nonneg (kN : ℤ) hpos.ne'
      have hlanes' := Int.emod_lt_of_pos (kN : ℤ) hpos
      rw [hconvert] at hout hadd
      have hover : (T.max : ℤ) < (n - n % kN : ℕ) + (kN : ℤ) % 2 ^ T.width := by
        by_contra hle
        exact hout (IndexType.holds_of_nonneg (by omega) (not_lt.mp hle))
      have hmod : (((n - n % kN : ℕ) : ℤ) + (kN : ℤ) % 2 ^ T.width) % 2 ^ T.width =
          (n - n % kN : ℕ) + (kN : ℤ) % 2 ^ T.width - 2 ^ T.width := by
        rw [← Int.sub_emod_right]
        exact Int.emod_eq_of_lt (by omega) (by omega)
      cases hadd
      omega

/-- A loop whose last block does not fit has no result, if the block checks its accesses. -/
theorem blockLoop_eq_none {block : ℤ → σ → Option σ} (hk : 0 < kN) (hn : n ≤ T.max)
    (hfit : ¬LastBlockFits T kN n)
    (hblock : ∀ (i : ℕ) s, n < i + kN → block i s = none) (m fuel : ℕ)
    (hi : i + m * kN = n - n % kN) : blockLoop T kN n block fuel i s = none := by
  induction fuel generalizing i s m with
  | zero => rfl
  | succ fuel ih =>
    have hmod := Nat.mod_lt n hk
    unfold blockLoop
    cases m with
    | zero =>
      rw [Nat.zero_mul, Nat.add_zero] at hi
      rw [Option.bind_eq_none_iff]
      intro last hadd
      rw [hi] at hadd
      rw [if_pos (last_le hn hfit hadd), hblock i s (by omega)]
      rfl
    | succ m =>
      rw [Nat.succ_mul] at hi
      have hwhole : i + kN ≤ n := by omega
      have hconvert : T.convert ((i : ℤ) + kN) = (i + kN : ℕ) :=
        IndexType.convert_of_nonneg (by omega) (by omega)
      rw [add_lanes hn hwhole, Option.bind_some, if_pos (by omega), hconvert]
      exact Option.bind_eq_none_iff.mpr fun s _ => ih m (by omega)

theorem whole_blocks (kN n : ℕ) : n / kN * kN = n - n % kN := by
  have h := Nat.div_add_mod' n kN
  omega

theorem simdLoop_eq {block tail : ℤ → σ → Option σ} {fuel : ℕ} (hn : n ≤ T.max)
    (hfit : LastBlockFits T kN n)
    (hblock : ∀ (i : ℕ) s, i + kN ≤ n → block i s = runOver tail (List.range' i kN) s)
    (hf : n < fuel) : simdLoop T kN n block tail fuel s = runOver tail (List.range n) s := by
  have hwhole := whole_blocks kN n
  have hle : n / kN ≤ n := Nat.div_le_self n kN
  have hblocks := blockLoop_eq (i := 0) (s := s) hn hfit hblock (n / kN) (by omega)
    (show n / kN < fuel by omega)
  have hrange : List.range n = List.range' 0 (n / kN * kN) ++
      List.range' (0 + n / kN * kN) (n - (0 + n / kN * kN)) := by
    rw [List.range'_append_1, List.range_eq_range']
    congr 1
    omega
  rw [simdLoop, hrange, runOver_append]
  rw [Nat.cast_zero] at hblocks
  rw [hblocks]
  cases runOver tail (List.range' 0 (n / kN * kN)) s with
  | none => rfl
  | some s => exact tailLoop_eq hn (by omega) (by omega)

theorem simdLoop_eq_none {block tail : ℤ → σ → Option σ} (fuel : ℕ) (hk : 0 < kN)
    (hn : n ≤ T.max) (hfit : ¬LastBlockFits T kN n)
    (hblock : ∀ (i : ℕ) s, n < i + kN → block i s = none) :
    simdLoop T kN n block tail fuel s = none := by
  have hblocks := blockLoop_eq_none (i := 0) (s := s) hk hn hfit hblock (n / kN) fuel
    (by rw [Nat.zero_add, whole_blocks])
  rw [simdLoop]
  rw [Nat.cast_zero] at hblocks
  rw [hblocks]
  rfl

/-! ## The block bodies -/

section
variable {xs ys src dst : List R}

theorem load_eq (i : ℕ) : load xs i = xs[i]? := by
  rw [load, if_pos (Int.natCast_nonneg i), Int.toNat_natCast]

theorem load_of_lt (h : i < xs.length) : load xs i = some xs[i] := by
  rw [load_eq, List.getElem?_eq_getElem h]

theorem store_of_lt (v : R) (h : i < xs.length) : store xs i v = some (xs.set i v) := by
  rw [store, if_pos ⟨Int.natCast_nonneg i, by omega⟩, Int.toNat_natCast]

theorem cast_succ' (i : ℕ) : (i : ℤ) + 1 = (i + 1 : ℕ) := by omega

theorem loadLanes_succ (h : i < xs.length) :
    loadLanes xs i (k + 1) = (loadLanes xs (i + 1 : ℕ) k).bind fun vs => some (xs[i] :: vs) := by
  rw [loadLanes, load_of_lt h, cast_succ']
  rfl

theorem loadLanes_eq (h : i + k ≤ xs.length) :
    loadLanes xs i k = some ((xs.drop i).take k) := by
  induction k generalizing i with
  | zero => rfl
  | succ k ih =>
    have hi : i < xs.length := by omega
    rw [loadLanes_succ hi, ih (by omega), List.drop_eq_getElem_cons hi, List.take_succ_cons]
    rfl

/-- A block that reaches past the end cannot be loaded. -/
theorem loadLanes_eq_none (hk : 0 < k) (h : xs.length < i + k) : loadLanes xs i k = none := by
  induction k generalizing i with
  | zero => omega
  | succ k ih =>
    by_cases hi : i < xs.length
    · rw [loadLanes_succ hi, ih (by omega) (by omega)]
      rfl
    · rw [loadLanes, load_eq, List.getElem?_eq_none (by omega)]
      rfl

theorem storeLanes_cons (v : R) (vs : List R) :
    storeLanes xs i (v :: vs) = (store xs i v).bind fun xs => storeLanes xs (i + 1 : ℕ) vs := by
  rw [storeLanes, cast_succ']
  rfl

theorem take_drop_succ (h : i < xs.length) :
    (xs.drop i).take (k + 1) = xs[i] :: (xs.drop (i + 1)).take k := by
  rw [List.drop_eq_getElem_cons h, List.take_succ_cons]

theorem copyElement_eq (h : i < src.length) : copyElement src i dst = store dst i src[i] := by
  rw [copyElement, load_of_lt h]
  rfl

theorem copyBlock_eq (h : i + kN ≤ src.length) :
    copyBlock kN src i dst = runOver (copyElement src) (List.range' i kN) dst := by
  have hload : copyBlock kN src i dst = storeLanes dst i ((src.drop i).take kN) := by
    rw [copyBlock, loadLanes_eq h]
    rfl
  rw [hload]
  clear hload
  induction kN generalizing i dst with
  | zero => rfl
  | succ kN ih =>
    have hi : i < src.length := by omega
    rw [take_drop_succ hi, storeLanes_cons, List.range'_succ, runOver_cons, copyElement_eq hi]
    exact congrArg _ (funext fun dst => ih (by omega))

theorem copyBlock_eq_none (hk : 0 < kN) (h : src.length < i + kN) :
    copyBlock kN src i dst = none := by
  rw [copyBlock, loadLanes_eq_none hk h]
  rfl

end

section
variable [Mul R] {alpha : R} {x : List R}

theorem scaleElement_eq (h : i < x.length) :
    scaleElement alpha i x = some (x.set i (alpha * x[i])) := by
  rw [scaleElement, load_of_lt h]
  exact store_of_lt _ h

theorem scaleElements_eq_none (hk : 0 < k) (h : x.length < i + k) :
    runOver (scaleElement alpha) (List.range' i k) x = none := by
  induction k generalizing i x with
  | zero => omega
  | succ k ih =>
    rw [List.range'_succ, runOver_cons]
    by_cases hi : i < x.length
    · rw [scaleElement_eq hi, Option.bind_some]
      exact ih (by omega) (by rw [List.length_set]; omega)
    · rw [scaleElement, load_eq, List.getElem?_eq_none (by omega)]
      rfl

theorem scaleBlock_eq (hk : 0 < kN) :
    scaleBlock kN alpha i x = runOver (scaleElement alpha) (List.range' i kN) x := by
  by_cases h : i + kN ≤ x.length
  · have hload : scaleBlock kN alpha i x =
        storeLanes x i (((x.drop i).take kN).map fun lane => alpha * lane) := by
      rw [scaleBlock, loadLanes_eq h]
      rfl
    rw [hload]
    clear hload hk
    induction kN generalizing i x with
    | zero => rfl
    | succ kN ih =>
      have hi : i < x.length := by omega
      have hdrop : (x.set i (alpha * x[i])).drop (i + 1) = x.drop (i + 1) :=
        List.drop_set_of_lt (Nat.lt_succ_self i)
      rw [take_drop_succ hi, List.map_cons, storeLanes_cons, List.range'_succ, runOver_cons,
        scaleElement_eq hi, store_of_lt _ hi, Option.bind_some, Option.bind_some, ← hdrop]
      exact ih (by rw [List.length_set]; omega)
  · rw [scaleElements_eq_none hk (by omega), scaleBlock, loadLanes_eq_none hk (by omega)]
    rfl

end

theorem foldl_add [AddMonoid R] (v : R) (vs : List R) :
    vs.foldl (fun result w => result + w) v = v + vs.sum := by
  induction vs generalizing v with
  | nil => exact (add_zero v).symm
  | cons w vs ih => rw [List.foldl_cons, ih, List.sum_cons, add_assoc]

theorem reduce_eq_sum [AddMonoid R] (vs : List R) : reduce vs = vs.sum := by
  cases vs with
  | nil => rfl
  | cons v vs => exact foldl_add v vs

section
variable [NonUnitalNonAssocSemiring R] {x y : List R} {acc : R}

theorem dotElement_eq (hx : i < x.length) (hy : i < y.length) :
    dotElement x y i acc = some (acc + x[i] * y[i]) := by
  rw [dotElement, load_of_lt hx, load_of_lt hy]
  rfl

theorem dotBlock_eq (hx : i + kN ≤ x.length) (hy : i + kN ≤ y.length) :
    dotBlock kN x y i acc = runOver (dotElement x y) (List.range' i kN) acc := by
  have hload : dotBlock kN x y i acc = some (acc +
      (List.zipWith (fun v w => v * w) ((x.drop i).take kN) ((y.drop i).take kN)).sum) := by
    rw [← reduce_eq_sum, dotBlock, loadLanes_eq hx, loadLanes_eq hy]
    rfl
  rw [hload]
  clear hload
  induction kN generalizing i acc with
  | zero => exact congrArg some (add_zero acc)
  | succ kN ih =>
    have hxi : i < x.length := by omega
    have hyi : i < y.length := by omega
    rw [take_drop_succ hxi, take_drop_succ hyi, List.zipWith_cons_cons, List.sum_cons,
      ← add_assoc, List.range'_succ, runOver_cons, dotElement_eq hxi hyi, Option.bind_some]
    exact ih (by omega) (by omega)

end

section
variable [Ring R] [LinearOrder R] {x : List R} {acc : R}

theorem absLane_eq [IsOrderedRing R] (v : R) : absLane v = |v| := by
  unfold absLane
  split
  · rename_i h
    exact (abs_of_neg h).symm
  · rename_i h
    exact (abs_of_nonneg (not_lt.mp h)).symm

theorem absElement_eq (h : i < x.length) : absElement x i acc = some (acc + |x[i]|) := by
  rw [absElement, load_of_lt h]
  rfl

theorem absBlock_eq [IsOrderedRing R] (h : i + kN ≤ x.length) :
    absBlock kN x i acc = runOver (absElement x) (List.range' i kN) acc := by
  have hload : absBlock kN x i acc = some (acc + (((x.drop i).take kN).map absLane).sum) := by
    rw [← reduce_eq_sum, absBlock, loadLanes_eq h]
    rfl
  rw [hload]
  clear hload
  induction kN generalizing i acc with
  | zero => exact congrArg some (add_zero acc)
  | succ kN ih =>
    have hi : i < x.length := by omega
    rw [take_drop_succ hi, List.map_cons, List.sum_cons, absLane_eq, ← add_assoc,
      List.range'_succ, runOver_cons, absElement_eq hi, Option.bind_some]
    exact ih (by omega)

end

/-! ## The functions -/

theorem runOver_exists {P : σ → Prop} {tail : ℤ → σ → Option σ} {is : List ℕ}
    (h : ∀ i ∈ is, ∀ s, P s → ∃ s', tail i s = some s' ∧ P s') (hs : P s) :
    ∃ r, runOver tail is s = some r := by
  induction is generalizing s with
  | nil => exact ⟨s, rfl⟩
  | cons i is ih =>
    obtain ⟨s', hs', hinv⟩ := h i List.mem_cons_self s hs
    obtain ⟨r, hr⟩ := ih (fun j hj => h j (List.mem_cons_of_mem i hj)) hinv
    exact ⟨r, by rw [runOver_cons, hs', Option.bind_some, hr]⟩

theorem runOver_congr {f g : ℤ → σ → Option σ} {is : List ℕ}
    (h : ∀ i ∈ is, ∀ s, f i s = g i s) : runOver f is s = runOver g is s := by
  induction is generalizing s with
  | nil => rfl
  | cons i is ih =>
    rw [runOver_cons, runOver_cons, h i List.mem_cons_self]
    exact congrArg _ (funext fun s => ih fun j hj => h j (List.mem_cons_of_mem i hj))

/-- The blocked loop and the scalar loop end with the same state. -/
theorem loops_sameResult {block tail : ℤ → σ → Option σ} {P : σ → Prop} (hn : n ≤ T.max)
    (hfit : LastBlockFits T kN n)
    (hblock : ∀ (i : ℕ) s, i + kN ≤ n → block i s = runOver tail (List.range' i kN) s)
    (hstep : ∀ i < n, ∀ s, P s → ∃ s', tail i s = some s' ∧ P s') (hs : P s) :
    SameResult (fun fuel => simdLoop T kN n block tail fuel s)
      (fun fuel => scalarLoop T n tail fuel s) := by
  obtain ⟨r, hr⟩ := runOver_exists (fun i hi => hstep i (List.mem_range.mp hi)) hs
  exact ⟨r, n + 1, fun fuel hf =>
    ⟨(simdLoop_eq hn hfit hblock hf).trans hr, (scalarLoop_eq hn hf).trans hr⟩⟩

theorem copy_sameResult (hn : n ≤ T.max) (hfit : LastBlockFits T kN n)
    (src dst : List R) (hsrc : src.length = n) (hdst : dst.length = n) :
    SameResult (copySimd T kN src dst) (copyScalar T src dst) := by
  subst hsrc
  refine loops_sameResult (P := fun d => d.length = src.length) hn hfit
    (fun i d h => copyBlock_eq h) (fun i hi d hd => ?_) hdst
  rw [copyElement_eq hi, store_of_lt _ (by omega)]
  exact ⟨_, rfl, by rw [List.length_set, hd]⟩

theorem copySimd_eq_none (hk : 0 < kN) (hn : n ≤ T.max) (hfit : ¬LastBlockFits T kN n)
    (src dst : List R) (hsrc : src.length = n) (fuel : ℕ) :
    copySimd T kN src dst fuel = none := by
  subst hsrc
  exact simdLoop_eq_none fuel hk hn hfit fun i d h => copyBlock_eq_none hk h

theorem scale_sameResult [Mul R] (hk : 0 < kN) (hn : n ≤ T.max) (hfit : LastBlockFits T kN n)
    (alpha : R) (x : List R) (hx : x.length = n) :
    SameResult (scaleSimd T kN alpha x) (scaleScalar T alpha x) := by
  subst hx
  refine loops_sameResult (P := fun d => d.length = x.length) hn hfit
    (fun i d _ => scaleBlock_eq hk) (fun i hi d hd => ?_) rfl
  rw [scaleElement_eq (by omega)]
  exact ⟨_, rfl, by rw [List.length_set, hd]⟩

section
variable [NonUnitalNonAssocSemiring R] {x y : List R}

/-- What a sum starts from can be added in the end. -/
theorem dotElements_add (is : List ℕ) (init acc : R) :
    runOver (dotElement x y) is (init + acc) =
      (runOver (dotElement x y) is acc).map fun acc => init + acc := by
  induction is generalizing acc with
  | nil => rfl
  | cons i is ih =>
    rw [runOver_cons, runOver_cons]
    unfold dotElement
    cases load x i with
    | none => rfl
    | some v =>
      cases load y i with
      | none => rfl
      | some w =>
        simp only [Option.bind_eq_bind, Option.bind_some, Option.pure_def, add_assoc]
        exact ih (acc + v * w)

theorem dotElements_exists (hx : x.length = n) (hy : y.length = n) (init : R) :
    ∃ r, runOver (dotElement x y) (List.range n) init = some r := by
  refine runOver_exists (P := fun _ => True) (fun i hi s _ => ?_) trivial
  rw [List.mem_range] at hi
  exact ⟨_, dotElement_eq (by omega) (by omega), trivial⟩

theorem dotLoop_eq {fuel : ℕ} (hn : n ≤ T.max) (hfit : LastBlockFits T kN n)
    (hx : x.length = n) (hy : y.length = n) (acc : R) (hf : n < fuel) :
    simdLoop T kN n (dotBlock kN x y) (dotElement x y) fuel acc =
      runOver (dotElement x y) (List.range n) acc :=
  simdLoop_eq hn hfit (fun _ _ h => dotBlock_eq (by omega) (by omega)) hf

theorem dotNumericSum_eq {fuel : ℕ} (hn : x.length ≤ T.max) (hpos : 0 < x.length)
    (init : R) (hf : x.length < fuel) :
    dotNumericSum T x y init fuel = runOver (dotElement x y) (List.range x.length) init := by
  have hrange : List.range x.length = 0 :: List.range' 1 (x.length - 1) := by
    obtain ⟨m, hm⟩ := Nat.exists_eq_succ_of_ne_zero hpos.ne'
    rw [hm, List.range_eq_range', List.range'_succ]
    rfl
  rw [hrange, runOver_cons]
  exact congrArg _ (funext fun s => tailLoop_eq (i := 1) hn hpos (by omega))

theorem dot_sameResult (hn : n ≤ T.max) (hfit : LastBlockFits T kN n) (x y : List R) (init : R)
    (hx : x.length = n) (hy : y.length = n) :
    SameResult (dotSimd T kN x y init) (dotScalar T x y init) := by
  subst hx
  obtain h0 | hpos := Nat.eq_zero_or_pos x.length
  · refine ⟨init, 0, fun fuel _ => ?_⟩
    rw [dotSimd, dotScalar, if_pos h0, if_pos h0]
    exact ⟨rfl, rfl⟩
  · obtain ⟨r, hr⟩ := dotElements_exists (x := x) (y := y) rfl hy 0
    refine ⟨init + r, x.length + 1, fun fuel hf => ?_⟩
    have hsum := dotElements_add (x := x) (y := y) (List.range x.length) init 0
    rw [add_zero, hr] at hsum
    rw [dotSimd, dotScalar, if_neg hpos.ne', if_neg hpos.ne', dotLoop_eq hn hfit rfl hy 0 hf,
      hr, dotNumericSum_eq hn hpos init hf, hsum]
    exact ⟨rfl, rfl⟩

theorem matrixVectorProduct_sameResult (hn : n ≤ T.max) (hfit : LastBlockFits T kN n)
    (A : List (List R)) (x y : List R) (hrows : A.length ≤ T.max)
    (hA : ∀ row ∈ A, row.length = n) (hx : x.length = n) (hy : y.length = A.length) :
    SameResult (matrixVectorProductSimd T kN A x y) (matrixVectorProductScalar T A x y) := by
  subst hx
  let exactRow := productRow
    (fun row => runOver (dotElement row x) (List.range x.length) 0) A
  have hexists : ∃ r, runOver exactRow (List.range A.length) y = some r := by
    refine runOver_exists (P := fun z => z.length = A.length) (fun i hi z hz => ?_) hy
    rw [List.mem_range] at hi
    obtain ⟨sum, hsum⟩ := dotElements_exists (y := x) (hA A[i] (List.getElem_mem hi)) rfl 0
    refine ⟨z.set i sum, ?_, by rw [List.length_set, hz]⟩
    simp only [exactRow, productRow, load_of_lt hi, hsum, Option.bind_eq_bind, Option.bind_some]
    exact store_of_lt sum (by omega)
  obtain ⟨r, hr⟩ := hexists
  refine ⟨r, max x.length A.length + 1, fun fuel hf => ?_⟩
  have hsame : ∀ (sum : List R → Option R), (∀ row ∈ A,
      sum row = runOver (dotElement row x) (List.range x.length) 0) →
      scalarLoop T A.length (productRow sum A) fuel y = some r := by
    intro sum hsum
    rw [scalarLoop_eq hrows (by omega), ← hr]
    refine runOver_congr fun i hi z => ?_
    rw [List.mem_range] at hi
    simp only [exactRow, productRow, load_of_lt hi, Option.bind_eq_bind, Option.bind_some]
    rw [hsum _ (List.getElem_mem hi)]
  exact ⟨hsame _ fun row hrow => dotLoop_eq hn hfit (hA row hrow) rfl 0 (by omega),
    hsame _ fun row hrow => scalarLoop_eq hn (by omega)⟩

end

theorem vectorAbsSum_sameResult [Ring R] [LinearOrder R] [IsOrderedRing R] (hn : n ≤ T.max)
    (hfit : LastBlockFits T kN n) (x : List R) (hx : x.length = n) :
    SameResult (vectorAbsSumSimd T kN x) (vectorAbsSumScalar T x) := by
  subst hx
  exact loops_sameResult (P := fun _ => True) hn hfit (fun i acc h => absBlock_eq h)
    (fun i hi acc _ => ⟨_, absElement_eq hi, trivial⟩) trivial

theorem runOver_log (is : List ℕ) (log : List ℤ) :
    runOver (fun i log => some (log ++ [i])) is log = some (log ++ is.map Nat.cast) := by
  induction is generalizing log with
  | nil => rw [List.map_nil, List.append_nil]; rfl
  | cons i is ih => rw [runOver_cons, Option.bind_some, ih, List.map_cons, List.append_assoc]; rfl

theorem accesses_eq {fuel : ℕ} (hn : n ≤ T.max) (hfit : LastBlockFits T kN n) (hf : n < fuel) :
    accesses T kN n fuel = some ((List.range n).map Nat.cast) := by
  rw [accesses, simdLoop_eq hn hfit (fun i log _ => ?_) hf, runOver_log, List.nil_append]
  rw [runOver_log, List.range'_eq_map_range, List.map_map]
  refine congrArg (fun l => some (log ++ l)) (List.map_congr_left fun j _ => ?_)
  exact (Nat.cast_add i j).symm

end Simd

open Simd

variable {T : IndexType} {kN n : ℕ}

theorem simdEqualsScalar_of_fits (hk : 0 < kN) (hn : n ≤ T.max) (hfit : LastBlockFits T kN n) :
    SimdEqualsScalar.{u} T kN n where
  accesses := ⟨n + 1, fun _ hf => accesses_eq hn hfit hf⟩
  copy := copy_sameResult hn hfit
  scale := scale_sameResult hk hn hfit
  dot := dot_sameResult hn hfit
  vectorAbsSum := vectorAbsSum_sameResult hn hfit
  matrixVectorProduct := matrixVectorProduct_sameResult hn hfit

theorem not_simdEqualsScalar (hk : 0 < kN) (hn : n ≤ T.max) (hfit : ¬LastBlockFits T kN n) :
    ¬SimdEqualsScalar.{u} T kN n := by
  intro h
  let units := List.replicate n PUnit.unit.{u + 1}
  have hlength : units.length = n := List.length_replicate
  obtain ⟨r, bound, hr⟩ := h.copy units units hlength hlength
  have hnone := copySimd_eq_none hk hn hfit units units hlength bound
  rw [(hr bound le_rfl).1] at hnone
  cases hnone

/-- The SIMD paths give what the scalar paths give exactly where the last block fits. -/
theorem simd_equals_scalar_iff (hk : 0 < kN) (hn : n ≤ T.max) :
    SimdEqualsScalar.{u} T kN n ↔ LastBlockFits T kN n := by
  refine ⟨fun h => ?_, simdEqualsScalar_of_fits hk hn⟩
  by_contra hfit
  exact not_simdEqualsScalar hk hn hfit h

/-- Four thousand elements, indexed by `uint32_t`, in blocks of eight. -/
theorem simd_equals_scalar_iff_uint32 :
    SimdEqualsScalar.{0} ⟨32, false⟩ 8 4000 ↔ LastBlockFits ⟨32, false⟩ 8 4000 :=
  simd_equals_scalar_iff (by decide) (by decide)

/-- With `2 ^ 32 - 1` elements the end of the last block wraps and the loop lets it in. -/
theorem simd_not_equals_scalar_uint32_max : ¬SimdEqualsScalar.{0} ⟨32, false⟩ 8 (2 ^ 32 - 1) :=
  not_simdEqualsScalar (by decide) (by decide) (by decide)

/-- Where the index type represents the lane count, the condition asks that the promoted type
represents the end of the last block. -/
theorem lastBlockFits_iff (hk : 0 < kN) (hlanes : kN ≤ T.max) :
    LastBlockFits T kN n ↔ n - n % kN + kN ≤ T.promoted.max := by
  have hconvert : T.convert kN = kN := IndexType.convert_of_nonneg (by omega) (by omega)
  have hmod := Nat.mod_lt n hk
  unfold LastBlockFits
  rw [hconvert]
  constructor
  · rintro ⟨-, hle⟩
    omega
  · intro hle
    constructor <;> omega

end CCForge.Linalg
