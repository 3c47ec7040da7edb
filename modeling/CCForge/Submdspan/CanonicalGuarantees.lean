import Mathlib.Algebra.Order.Floor.Ring
import Mathlib.Data.List.Sort
import Mathlib.Data.Rat.Floor
import CCForge.Submdspan.Canonical
import CCForge.Submdspan.Selection

/-!
# Canonical slices select the same

Where the length of a range is representable nothing overflows, and the canonical slice counts
the multiples of the stride below it.
-/

namespace CCForge.Submdspan

open CCForge.Linalg (IndexType)

variable {T : IndexType} {s s' : RawSlice} {c c' : CanonicalSlice} {offset span first last d e : Component}
  {stride : Option Component} {x y : ℤ}

/-! ## Errors -/

theorem bind_ok {α β : Type} {r : Except Failure α} {f : α → Except Failure β} {b : β}
    (h : r >>= f = .ok b) : ∃ a, r = .ok a ∧ f a = .ok b := by
  cases r with
  | error failure => cases h
  | ok a => exact ⟨a, rfl, h⟩

theorem ok_bind {α β : Type} (a : α) (f : α → Except Failure β) : (.ok a : Except Failure α) >>= f = f a :=
  rfl

theorem pure_ok {α : Type} {a b : α} (h : (pure a : Except Failure α) = .ok b) : a = b :=
  Except.ok.inj h

/-! ## Numbers of a slice -/

theorem canonicalIndex_of_holds (hT : 0 < T.width) (h : T.Holds d.value) : canonicalIndex T d = .ok d := by
  obtain ⟨value, isStatic⟩ := d
  cases isStatic with
  | true => exact if_pos h
  | false =>
    have hvalue : T.convert value = value := IndexType.convert_of_holds hT h
    simp [canonicalIndex, hvalue]

theorem holds_of_canonicalIndex (hT : 0 < T.width) (h : canonicalIndex T d = .ok e) : T.Holds e.value := by
  unfold canonicalIndex at h
  split at h
  · split at h
    · next hd =>
      cases h
      exact hd
    · cases h
  · cases h
    exact IndexType.holds_convert hT _

theorem convert_one (h : 0 < x) (hx : T.Holds x) : T.convert 1 = 1 := by
  have hmax := hx.2
  exact IndexType.convert_of_nonneg (by decide) (by omega)

theorem difference_of_holds (h : T.Holds (last.value - first.value)) :
    difference T last first = .ok ⟨last.value - first.value, last.isStatic && first.isStatic⟩ := by
  unfold difference
  rw [IndexType.sub, IndexType.promoted_result_of_holds h]
  rfl

/-! ## Counting -/

/-- The number of multiples of the stride in a range is the rounded quotient. -/
theorem count_eq_ceil (x : ℤ) (hy : 0 < y) : 1 + (x - 1) / y = ⌈(x : ℚ) / y⌉ := by
  have hdiv := Int.mul_ediv_add_emod (x - 1) y
  have hlo := Int.emod_nonneg (x - 1) hy.ne'
  have hhi := Int.emod_lt_of_pos (x - 1) hy
  have hy' : (0 : ℚ) < y := by exact_mod_cast hy
  symm
  rw [Int.ceil_eq_iff, lt_div_iff₀ hy', div_le_iff₀ hy']
  constructor
  · have hlt : ((1 + (x - 1) / y) - 1) * y < x := by
      have hcancel : 1 + (x - 1) / y - 1 = (x - 1) / y := by omega
      rw [hcancel, Int.mul_comm]
      omega
    exact_mod_cast hlt
  · have hle : x ≤ (1 + (x - 1) / y) * y := by
      rw [Int.add_mul, Int.one_mul, Int.mul_comm (_ / _)]
      omega
    exact_mod_cast hle

/-- The multiples of the stride below the length of a range, one after another. -/
theorem filter_dvd_range {n s m : ℕ} (hs : 0 < s) (hm : ∀ k, k < m ↔ k * s < n) :
    (List.range n).filter (fun k : ℕ => (s : ℤ) ∣ (k : ℤ)) = (List.range m).map (· * s) := by
  have hinc : (List.range m).map (· * s) |>.Pairwise (· < ·) := by
    rw [List.pairwise_map]
    exact List.pairwise_lt_range.imp fun hlt => Nat.mul_lt_mul_of_pos_right hlt hs
  refine (List.pairwise_lt_range.filter _).eq_of_mem_iff hinc fun k => ?_
  rw [List.mem_filter, List.mem_map, List.mem_range, decide_eq_true_eq, Int.natCast_dvd_natCast]
  constructor
  · rintro ⟨hk, q, rfl⟩
    refine ⟨q, ?_, Nat.mul_comm q s⟩
    rw [List.mem_range, hm, Nat.mul_comm]
    exact hk
  · rintro ⟨q, hq, rfl⟩
    rw [List.mem_range, hm] at hq
    exact ⟨hq, Nat.dvd_mul_left s q⟩

/-- The extent of a canonical range. -/
def count (span stride : ℤ) : ℤ := if span = 0 then 0 else 1 + (span - 1) / stride

theorem count_spec (hx : 0 ≤ x) (hy : 0 < y ∨ x = 0) : count x y = ⌈(x : ℚ) / y⌉ := by
  unfold count
  split
  · next hzero =>
    subst hzero
    simp
  · next hne => exact count_eq_ceil x (by omega)

theorem lt_count_iff (hx : 0 ≤ x) (hy : 0 < y ∨ x = 0) (k : ℕ) :
    k < (count x y).toNat ↔ k * y.toNat < x.toNat := by
  unfold count
  split
  · next hzero =>
    subst hzero
    simp
  · next hne =>
    have hy : 0 < y := by omega
    have hiff : (k : ℤ) ≤ (x - 1) / y ↔ k * y ≤ x - 1 := Int.le_ediv_iff_mul_le hy
    have hcast : ((k * y.toNat : ℕ) : ℤ) = k * y := by
      rw [Nat.cast_mul, Int.toNat_of_nonneg hy.le]
    omega

theorem selected_range_eq (hx : 0 ≤ x) (hy : 0 < y ∨ x = 0) (origin : ℤ) :
    ((List.range x.toNat).filter fun k : ℕ => y ∣ (k : ℤ)).map (fun k : ℕ => origin + k) =
      (List.range (count x y).toNat).map fun k : ℕ => origin + k * y := by
  by_cases hzero : x = 0
  · subst hzero
    rfl
  · have hpos : 0 < y := by omega
    have hfilter := filter_dvd_range (n := x.toNat) (s := y.toNat) (by omega) (lt_count_iff hx hy)
    rw [Int.toNat_of_nonneg hpos.le] at hfilter
    rw [hfilter, List.map_map]
    refine List.map_congr_left fun k _ => ?_
    simp [Int.toNat_of_nonneg hpos.le]

/-! ## Ranges -/

theorem canonicalExtent_eq (h : T.Holds x) (hx : 0 ≤ x) (hy : 0 < y ∨ x = 0) (hT : 0 < T.width) :
    canonicalExtent T x y = .ok (count x y) := by
  unfold canonicalExtent count
  split
  · rfl
  · next hne =>
    have hy : 0 < y := by omega
    have hpos : 0 < x := by omega
    have hmax := h.2
    -- no operation on the length leaves the range between zero and the length
    have hquot : 0 ≤ (x - 1) / y := Int.ediv_nonneg (by omega) hy.le
    have hle : (x - 1) / y ≤ x - 1 := Int.ediv_le_self y (by omega)
    have hlast : T.Holds (x - 1) := IndexType.holds_of_nonneg (by omega) (by omega)
    have hsteps : T.Holds ((x - 1) / y) := IndexType.holds_of_nonneg hquot (by omega)
    have hcount : T.Holds (1 + (x - 1) / y) := IndexType.holds_of_nonneg (by omega) (by omega)
    rw [convert_one hpos h, IndexType.sub, IndexType.promoted_result_of_holds hlast]
    simp only [defined, ok_bind]
    rw [quotient, if_neg hy.ne', IndexType.div, Int.tdiv_eq_ediv_of_nonneg (by omega),
      IndexType.promoted_result_of_holds hsteps]
    simp only [ok_bind]
    rw [IndexType.add, IndexType.promoted_result_of_holds hcount]
    exact congrArg Except.ok (IndexType.convert_of_holds hT hcount)

/-- The stride a range has, one where it is left out. -/
def strideValue (stride : Option Component) : ℤ := stride.elim 1 Component.value

theorem canonicalStride_spec (stride : Option Component) (hT : 0 < T.width)
    (hspan : T.Holds span.value) (hx : 0 ≤ span.value) (hstride : ∀ d ∈ stride, T.Holds d.value) :
    ∃ e, canonicalStride T span stride = .ok e ∧ (span.value ≠ 0 → e.value = strideValue stride) := by
  cases stride with
  | none => exact ⟨_, rfl, fun hne => convert_one (by omega) hspan⟩
  | some d =>
    unfold canonicalStride
    dsimp only
    split
    · next hzero => exact ⟨_, rfl, fun hne => absurd hzero.2 hne⟩
    · rw [canonicalIndex_of_holds hT (hstride d rfl), ok_bind]
      split
      · exact ⟨d, rfl, fun _ => rfl⟩
      · exact ⟨_, rfl, fun hne => if_neg hne⟩

/-- A range that is accepted becomes the slice that counts its indices. -/
theorem canonicalRangeSlice_spec (span : Component) (stride : Option Component) (hT : 0 < T.width)
    (hoffset : T.Holds offset.value)
    (hspan : T.Holds span.value) (hx : 0 ≤ span.value) (hstride : ∀ d ∈ stride, T.Holds d.value)
    (hpos : 0 < strideValue stride ∨ span.value = 0)
    (haccept : canonicalRangeSlice T offset span stride ≠ .error .illFormed) :
    ∃ extent e, canonicalRangeSlice T offset span stride = .ok (.extentSlice offset extent e) ∧
      extent.value = count span.value (strideValue stride) ∧
      (span.value ≠ 0 → e.value = strideValue stride) := by
  obtain ⟨e, he, hvalue⟩ := canonicalStride_spec stride hT hspan hx hstride
  -- only an empty range may get another stride, and it counts no index
  have hcount : count span.value e.value = count span.value (strideValue stride) := by
    by_cases hzero : span.value = 0
    · simp [count, hzero]
    · rw [hvalue hzero]
  have hpos' : 0 < e.value ∨ span.value = 0 := by
    by_cases hzero : span.value = 0
    · exact .inr hzero
    · rw [hvalue hzero]
      exact hpos
  unfold canonicalRangeSlice at haccept ⊢
  rw [canonicalIndex_of_holds hT hoffset, ok_bind, canonicalIndex_of_holds hT hspan, ok_bind, he,
    ok_bind] at haccept ⊢
  split at haccept
  · exact absurd rfl haccept
  · next hok =>
    rw [if_neg hok, canonicalExtent_eq hspan hx hpos' hT, ok_bind]
    exact ⟨_, e, rfl, hcount, hvalue⟩

theorem selected_extentSlice (hx : 0 ≤ x) (hy : 0 < y ∨ x = 0) (hextent : d.value = count x y)
    (hstride : x ≠ 0 → e.value = y) (dimension : ℕ) :
    (CanonicalSlice.extentSlice offset d e).selected dimension =
      ((List.range x.toNat).filter fun k : ℕ => y ∣ (k : ℤ)).map (fun k : ℕ => offset.value + k) := by
  rw [selected_range_eq hx hy, ← hextent]
  refine List.map_congr_left fun k hk => ?_
  have hne : x ≠ 0 := by
    intro hzero
    subst hzero
    rw [hextent] at hk
    simp [count] at hk
  rw [hstride hne]

/-! ## Slices -/

/-- The canonical slice selects what the slice selects, and the extent of a range is rounded up. -/
theorem canonicalSlice_spec (hT : 0 < T.width) (hs : s.Representable T)
    (haccept : canonicalSlice T s ≠ .error .illFormed) :
    ∃ c, canonicalSlice T s = .ok c ∧ (∀ dimension, c.selected dimension = s.selected dimension) ∧
      ∀ first last stride, s.range = some (first, last, stride) →
        c.extent = some ⌈((last - first : ℤ) : ℚ) / stride⌉ ∧ (first = last → c.extent = some 0) := by
  cases s with
  | full => exact ⟨.full, rfl, fun _ => rfl, fun _ _ _ h => by cases h⟩
  | index i =>
    refine ⟨.index i, ?_, fun _ => rfl, fun _ _ _ h => by cases h⟩
    rw [canonicalSlice, canonicalIndex_of_holds hT hs]
    rfl
  | extentSlice offset extent stride =>
    obtain ⟨ho, he, hst⟩ := hs
    refine ⟨.extentSlice offset extent stride, ?_, fun _ => rfl, fun _ _ _ h => by cases h⟩
    rw [canonicalSlice, canonicalIndex_of_holds hT ho, canonicalIndex_of_holds hT he,
      canonicalIndex_of_holds hT hst]
    rfl
  | rangeSlice first last stride =>
    obtain ⟨hf, hl, hst, hd, hle, hpos⟩ := hs
    have hslice : canonicalSlice T (.rangeSlice first last stride) = canonicalRangeSlice T first
        ⟨last.value - first.value, last.isStatic && first.isStatic⟩ (some stride) := by
      rw [canonicalSlice, canonicalIndex_of_holds hT hf, ok_bind, canonicalIndex_of_holds hT hl, ok_bind,
        canonicalIndex_of_holds hT hst, ok_bind, difference_of_holds hd, ok_bind]
    have hpos' : 0 < stride.value ∨ last.value - first.value = 0 := by omega
    rw [hslice] at haccept ⊢
    obtain ⟨extent, e, hc, hextent, he⟩ := canonicalRangeSlice_spec ⟨_, _⟩ (some stride) hT hf hd
      (by simpa using hle) (fun d hdmem => by cases hdmem; exact hst) hpos' haccept
    refine ⟨_, hc, fun dimension => ?_, ?_⟩
    · exact selected_extentSlice (by omega) hpos' hextent he dimension
    · intro f l st hrange
      cases hrange
      have hceil := count_spec (by omega) hpos'
      refine ⟨congrArg some (hextent.trans hceil), fun heq => congrArg some ?_⟩
      rw [hextent, heq]
      simp [count]
  | pairLike first last =>
    obtain ⟨hf, hl, hd, hle⟩ := hs
    -- a pair is a range without a stride
    have hslice : canonicalSlice T (.pairLike first last) = canonicalRangeSlice T first
        ⟨last.value - first.value, last.isStatic && first.isStatic⟩ none := by
      rw [canonicalSlice, canonicalIndex_of_holds hT hf, ok_bind, canonicalIndex_of_holds hT hl, ok_bind,
        difference_of_holds hd, ok_bind]
    rw [hslice] at haccept ⊢
    obtain ⟨extent, e, hc, hextent, he⟩ := canonicalRangeSlice_spec ⟨_, _⟩ none hT hf hd
      (by simpa using hle) (fun d hdmem => by cases hdmem) (.inl Int.one_pos) haccept
    refine ⟨_, hc, fun dimension => ?_, ?_⟩
    · have hx : 0 ≤ last.value - first.value := by omega
      rw [selected_extentSlice hx (.inl Int.one_pos) hextent he dimension]
      simp [RawSlice.selected]
    · intro f l st hrange
      cases hrange
      have hceil := count_spec (x := last.value - first.value) (y := 1) (by omega) (.inl Int.one_pos)
      refine ⟨congrArg some (hextent.trans hceil), fun heq => congrArg some ?_⟩
      rw [hextent, heq]
      simp [count]

/-! ## Idempotence -/

/-- The index type has every number of the slice. -/
def CanonicalSlice.Closed (T : IndexType) : CanonicalSlice → Prop
  | full => True
  | index i => T.Holds i.value
  | extentSlice offset extent stride =>
    T.Holds offset.value ∧ T.Holds extent.value ∧ T.Holds stride.value

theorem CanonicalSlice.IsCanonical.closed (h : c.IsCanonical T) : c.Closed T := by
  cases c with
  | full => trivial
  | index i => exact h.1
  | extentSlice offset extent stride => exact ⟨h.1.1, h.2.1.1, h.2.2.1.1⟩

theorem canonicalSlice_raw (hT : 0 < T.width) (h : c.Closed T) : canonicalSlice T c.raw = .ok c := by
  cases c with
  | full => rfl
  | index i =>
    rw [CanonicalSlice.raw, canonicalSlice, canonicalIndex_of_holds hT h]
    rfl
  | extentSlice offset extent stride =>
    obtain ⟨ho, he, hst⟩ := h
    rw [CanonicalSlice.raw, canonicalSlice, canonicalIndex_of_holds hT ho,
      canonicalIndex_of_holds hT he, canonicalIndex_of_holds hT hst]
    rfl

theorem holds_of_canonicalExtent (hT : 0 < T.width) {z : ℤ} (h : canonicalExtent T x y = .ok z) :
    T.Holds z := by
  unfold canonicalExtent at h
  split at h
  · cases h
    exact IndexType.holds_of_nonneg le_rfl (Int.natCast_nonneg _)
  · obtain ⟨last, -, h⟩ := bind_ok h
    obtain ⟨steps, -, h⟩ := bind_ok h
    obtain ⟨extent, -, h⟩ := bind_ok h
    cases pure_ok h
    exact IndexType.holds_convert hT _

theorem holds_of_canonicalStride (hT : 0 < T.width) (h : canonicalStride T span stride = .ok e) :
    T.Holds e.value := by
  have hone : T.Holds (T.convert 1) := IndexType.holds_convert hT 1
  unfold canonicalStride at h
  split at h
  · cases h
    exact hone
  · split at h
    · cases h
      exact hone
    · obtain ⟨d, hd, h⟩ := bind_ok h
      have hholds := holds_of_canonicalIndex hT hd
      split at h
      · cases pure_ok h
        exact hholds
      · cases pure_ok h
        dsimp only
        split
        · exact hone
        · exact hholds

theorem closed_of_canonicalRangeSlice (hT : 0 < T.width)
    (h : canonicalRangeSlice T offset span stride = .ok c) : c.Closed T := by
  obtain ⟨o, ho, h⟩ := bind_ok h
  obtain ⟨sp, -, h⟩ := bind_ok h
  obtain ⟨st, hst, h⟩ := bind_ok h
  split at h
  · cases h
  · obtain ⟨extent, hextent, h⟩ := bind_ok h
    cases pure_ok h
    exact ⟨holds_of_canonicalIndex hT ho, holds_of_canonicalExtent hT hextent,
      holds_of_canonicalStride hT hst⟩

theorem closed_of_canonicalSlice (hT : 0 < T.width) (h : canonicalSlice T s = .ok c) : c.Closed T := by
  cases s with
  | full =>
    cases h
    trivial
  | index i =>
    obtain ⟨d, hd, h⟩ := bind_ok h
    cases pure_ok h
    exact holds_of_canonicalIndex hT hd
  | extentSlice offset extent stride =>
    obtain ⟨o, ho, h⟩ := bind_ok h
    obtain ⟨e, he, h⟩ := bind_ok h
    obtain ⟨st, hst, h⟩ := bind_ok h
    cases pure_ok h
    exact ⟨holds_of_canonicalIndex hT ho, holds_of_canonicalIndex hT he, holds_of_canonicalIndex hT hst⟩
  | rangeSlice first last stride =>
    obtain ⟨f, -, h⟩ := bind_ok h
    obtain ⟨l, -, h⟩ := bind_ok h
    obtain ⟨st, -, h⟩ := bind_ok h
    obtain ⟨sp, -, h⟩ := bind_ok h
    exact closed_of_canonicalRangeSlice hT h
  | pairLike first last =>
    obtain ⟨f, -, h⟩ := bind_ok h
    obtain ⟨l, -, h⟩ := bind_ok h
    obtain ⟨sp, -, h⟩ := bind_ok h
    exact closed_of_canonicalRangeSlice hT h

/-- Slices that are canonical stay as they are. -/
theorem canonicalSlices_raw (hT : 0 < T.width) {slices : List RawSlice} {canonical : List CanonicalSlice}
    (h : canonicalSlices T slices = .ok canonical) :
    canonicalSlices T (canonical.map CanonicalSlice.raw) = .ok canonical := by
  unfold canonicalSlices at h ⊢
  induction slices generalizing canonical with
  | nil =>
    cases h
    rfl
  | cons s slices ih =>
    rw [List.mapM_cons] at h
    obtain ⟨c, hc, h⟩ := bind_ok h
    obtain ⟨rest, hrest, h⟩ := bind_ok h
    cases pure_ok h
    rw [List.map_cons, List.mapM_cons, canonicalSlice_raw hT (closed_of_canonicalSlice hT hc), ok_bind,
      ih hrest]
    rfl

theorem length_of_canonicalSlices {slices : List RawSlice} {canonical : List CanonicalSlice}
    (h : canonicalSlices T slices = .ok canonical) : canonical.length = slices.length := by
  unfold canonicalSlices at h
  induction slices generalizing canonical with
  | nil =>
    cases h
    rfl
  | cons s slices ih =>
    rw [List.mapM_cons] at h
    obtain ⟨c, -, h⟩ := bind_ok h
    obtain ⟨rest, hrest, h⟩ := bind_ok h
    cases pure_ok h
    rw [List.length_cons, List.length_cons, ih hrest]

theorem rawSubextents_raw (hT : 0 < T.width) {slices : List RawSlice} {canonical : List CanonicalSlice}
    (h : canonicalSlices T slices = .ok canonical) (sources : List Component) :
    rawSubextents T sources (canonical.map CanonicalSlice.raw) = rawSubextents T sources slices := by
  unfold rawSubextents
  rw [List.length_map, length_of_canonicalSlices h, canonicalSlices_raw hT h, h]

/-! ## The exact slices -/

/-- The slice of the exact model. -/
def CanonicalSlice.exact : CanonicalSlice → Slice
  | full => .full
  | index i => .index i.value.toNat
  | extentSlice offset extent stride =>
    .extentSlice offset.value.toNat extent.value.toNat stride.value.toNat stride.isStatic

/-- The extents that the machine builds are those of the exact model. -/
theorem machineExtents_exact (hT : 0 < T.width) {sources rest : List Component}
    {canonical : List CanonicalSlice} (hsources : ∀ d ∈ sources, T.Holds d.value)
    (hclosed : ∀ c ∈ canonical, c.Closed T) :
    ∃ result, machineExtents T sources canonical rest = .ok result ∧
      result.map (·.value.toNat) = extentsBuilder (sources.map (·.value.toNat))
        (canonical.map CanonicalSlice.exact) (rest.map (·.value.toNat)) := by
  induction sources generalizing canonical rest with
  | nil => exact ⟨rest, rfl, rfl⟩
  | cons source sources ih =>
    cases canonical with
    | nil => exact ⟨rest, rfl, rfl⟩
    | cons c canonical =>
      rw [List.forall_mem_cons] at hsources hclosed
      have hnext : ∀ rest, ∃ result, machineExtents T sources canonical rest = .ok result ∧ _ :=
        fun rest => ih hsources.2 hclosed.2
      rw [machineExtents]
      cases c with
      | full =>
        have hzero : T.convert 0 = 0 := IndexType.convert_of_nonneg le_rfl (Int.natCast_nonneg _)
        have hkept : keptComponent T source .full = .ok (some source) := by
          obtain ⟨value, isStatic⟩ := source
          have hvalue : T.convert value = value := IndexType.convert_of_holds hT hsources.1
          unfold keptComponent
          rw [hzero, hvalue, IndexType.sub, Int.sub_zero,
            IndexType.promoted_result_of_holds hsources.1]
          cases isStatic with
          | true => rfl
          | false => exact congrArg (fun v => Except.ok (some (Component.mk v false))) hvalue
        obtain ⟨result, hresult, hvalues⟩ := hnext (rest ++ [source])
        rw [hkept]
        refine ⟨result, hresult, ?_⟩
        rw [hvalues, List.map_append]
        rfl
      | index i =>
        -- an index drops its dimension
        obtain ⟨result, hresult, hvalues⟩ := hnext (rest ++ [])
        rw [List.append_nil] at hvalues
        exact ⟨result, hresult, hvalues⟩
      | extentSlice offset extent stride =>
        have hkept : keptComponent T source (.extentSlice offset extent stride) = .ok (some extent) := by
          obtain ⟨value, isStatic⟩ := extent
          have hvalue : T.convert value = value := IndexType.convert_of_holds hT hclosed.1.2.1
          cases isStatic with
          | true => rfl
          | false => exact congrArg (fun v => Except.ok (some (Component.mk v false))) hvalue
        obtain ⟨result, hresult, hvalues⟩ := hnext (rest ++ [extent])
        rw [hkept]
        refine ⟨result, hresult, ?_⟩
        rw [hvalues, List.map_append]
        rfl

/-! ## canonical_slice -/

theorem representable_of_dynamic (h : s'.dynamic = s.dynamic) (hs : s.Representable T) :
    s'.Representable T := by
  cases s <;> cases s' <;> simp_all [RawSlice.dynamic, RawSlice.Representable]

theorem selected_of_dynamic (h : s'.dynamic = s.dynamic) (dimension : ℕ) :
    s'.selected dimension = s.selected dimension := by
  cases s <;> cases s' <;> simp_all [RawSlice.dynamic, RawSlice.selected]

/-- Canonicalisation keeps the selected indices and is idempotent. -/
theorem canonical_slice_preserves (T : IndexType) (hT : 0 < T.width) (s : RawSlice)
    (hs : s.Representable T) (haccept : canonicalSlice T s ≠ .error .illFormed) :
    (∃ c, canonicalSlice T s = .ok c ∧
      (∀ dimension, c.selected dimension = s.selected dimension) ∧
      (∀ first last stride, s.range = some (first, last, stride) →
        c.extent = some ⌈((last - first : ℤ) : ℚ) / stride⌉ ∧ (first = last → c.extent = some 0)) ∧
      canonicalSlice T c.raw = .ok c ∧
      ∀ s', s'.dynamic = s.dynamic → canonicalSlice T s' ≠ .error .illFormed →
        ∃ c', canonicalSlice T s' = .ok c' ∧ ∀ dimension, c'.selected dimension = c.selected dimension) ∧
    (∀ c : CanonicalSlice, c.IsCanonical T → canonicalSlice T c.raw = .ok c) ∧
    ∀ sources slices canonical, canonicalSlices T slices = .ok canonical →
      rawSubextents T sources (canonical.map CanonicalSlice.raw) = rawSubextents T sources slices := by
  obtain ⟨c, hc, hselected, hextent⟩ := canonicalSlice_spec hT hs haccept
  refine ⟨⟨c, hc, hselected, hextent, ?_, ?_⟩, ?_, ?_⟩
  · exact canonicalSlice_raw hT (closed_of_canonicalSlice hT hc)
  · intro s' hspelled haccept'
    obtain ⟨c', hc', hselected', -⟩ :=
      canonicalSlice_spec hT (representable_of_dynamic hspelled hs) haccept'
    refine ⟨c', hc', fun dimension => ?_⟩
    rw [hselected', hselected, selected_of_dynamic hspelled]
  · exact fun c hcanonical => canonicalSlice_raw hT hcanonical.closed
  · exact fun sources slices canonical h => rawSubextents_raw hT h sources

/-- The indices 1, 3 and 5 of a range with a constant stride, in an unsigned byte. -/
theorem canonical_slice_preserves_range :
    ∃ c, canonicalSlice ⟨8, false⟩ (.rangeSlice ⟨1, false⟩ ⟨6, false⟩ ⟨2, true⟩) = .ok c ∧
      c.selected 8 = [1, 3, 5] := by
  obtain ⟨c, hc, hselected, -⟩ := (canonical_slice_preserves ⟨8, false⟩ (by decide)
    (.rangeSlice ⟨1, false⟩ ⟨6, false⟩ ⟨2, true⟩) (by unfold RawSlice.Representable; decide)
    (by decide)).1
  exact ⟨c, hc, hselected 8⟩

/-- In `signed char` the length of the range from -100 to 100 wraps, and nothing is selected. A pair
that runs backwards selects indices where the type is unsigned. -/
theorem canonical_slice_wraps :
    (∃ c, canonicalSlice ⟨8, true⟩ (.rangeSlice ⟨-100, false⟩ ⟨100, false⟩ ⟨1, true⟩) = .ok c ∧
      c.selected 1 = [] ∧
      -100 ∈ (RawSlice.rangeSlice ⟨-100, false⟩ ⟨100, false⟩ ⟨1, true⟩).selected 1) ∧
    ∃ c, canonicalSlice ⟨8, false⟩ (.pairLike ⟨3, false⟩ ⟨1, false⟩) = .ok c ∧
      c.selected 1 ≠ [] ∧ (RawSlice.pairLike ⟨3, false⟩ ⟨1, false⟩).selected 1 = [] := by
  refine ⟨⟨.extentSlice ⟨-100, false⟩ ⟨-56, false⟩ ⟨1, true⟩, by decide, rfl, by decide⟩,
    ⟨.extentSlice ⟨3, false⟩ ⟨254, false⟩ ⟨1, true⟩, by decide, ?_, rfl⟩⟩
  simp [CanonicalSlice.selected, CanonicalSlice.raw, RawSlice.selected]

end CCForge.Submdspan
