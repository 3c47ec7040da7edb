import CCForge.BasicVec.Bits

/-!
# What the bit permutations do

`bit_compress` and `bit_expand` move bits between the low end of a lane and the positions that a mask
selects, and undo each other there. `bit_reverse` mirrors the positions.
-/

namespace CCForge.BasicVec

open CCForge.Linalg (IndexType)
open CCForge.Loops

variable {w n k i : ℕ} {v m : BitVec w}

/-- The mask has the bit. -/
abbrev Selects (m : BitVec w) (i : ℕ) : Prop := m.getLsbD i = true

/-- The number of set bits. -/
def popcount (m : BitVec w) : ℕ := Nat.count (Selects m) w

/-- The position of the `k`-th set bit. -/
noncomputable def position (m : BitVec w) (k : ℕ) : ℕ := Nat.nth (Selects m) k

theorem position_spec (h : k < popcount m) :
    position m k < w ∧ Selects m (position m k) ∧ Nat.count (Selects m) (position m k) = k :=
  nth_spec h

theorem position_count (h : Selects m i) : position m (Nat.count (Selects m) i) = i := Nat.nth_count h

/-! ## bit_compress and bit_expand -/

/-- `bit_compress` has a value, and its bits are the selected ones in order. -/
theorem bitCompressScalar_spec (v m : BitVec w) : ∃ r, bitCompressScalar v m = some r ∧
    ∀ k, r.getLsbD k = (decide (k < popcount m) && v.getLsbD (position m k)) := by
  obtain ⟨r, hr, hI⟩ := cursorUp_induction (n := w) (p := Selects m) (s := (0 : BitVec w))
    (I := fun i r => ∀ k, r.getLsbD k =
      (decide (k < Nat.count (Selects m) i) && v.getLsbD (position m k)))
    (q := fun source => (bitAt m source).map fun bit => bit != 0)
    (f := fun source destination result => do
      let moved ← moveBit v source destination
      return result ||| moved)
    (by simp) (fun i hi => by rw [selected_eq m hi]; simp)
    (by
      intro i r hi hp hI k
      rw [hI k, Nat.count_succ, if_neg hp, Nat.add_zero])
    (by
      intro i r hi hp hI
      -- the cursor is not beyond the source, so the shift stays in the lane
      have hd : Nat.count (Selects m) i < w := lt_of_le_of_lt (Nat.count_le _) hi
      refine ⟨r ||| if v.getLsbD i then BitVec.twoPow w (Nat.count (Selects m) i) else 0, ?_, fun k => ?_⟩
      · simp [moveBit_eq v hi hd]
      · rw [getLsbD_moved r v hd, hI k, Nat.count_succ, if_pos hp]
        by_cases hk : k = Nat.count (Selects m) i
        · simp [hk, position_count hp]
        · have hiff : k < Nat.count (Selects m) i + 1 ↔ k < Nat.count (Selects m) i := by omega
          simp [hk, hiff])
  refine ⟨r, ?_, hI⟩
  rw [bitCompressScalar, hr]
  rfl

/-- `bit_expand` has a value, and its bits are at the selected positions. -/
theorem bitExpandScalar_spec (v m : BitVec w) : ∃ r, bitExpandScalar v m = some r ∧
    ∀ i, r.getLsbD i = (m.getLsbD i && v.getLsbD (Nat.count (Selects m) i)) := by
  obtain ⟨r, hr, hI⟩ := cursorUp_induction (n := w) (p := Selects m) (s := (0 : BitVec w))
    (I := fun j r => ∀ i, r.getLsbD i =
      (decide (i < j) && (m.getLsbD i && v.getLsbD (Nat.count (Selects m) i))))
    (q := fun destination => (bitAt m destination).map fun bit => bit != 0)
    (f := fun destination source result => do
      let moved ← moveBit v source destination
      return result ||| moved)
    (by simp) (fun i hi => by rw [selected_eq m hi]; simp)
    (by
      intro j r hj hp hI i
      rw [hI i]
      by_cases he : i = j
      · subst he
        simp [Bool.eq_false_iff.mpr hp]
      · have hiff : i < j + 1 ↔ i < j := by omega
        simp [hiff])
    (by
      intro j r hj hp hI
      -- here the cursor is the source, which is not beyond the destination
      have hs : Nat.count (Selects m) j < w := lt_of_le_of_lt (Nat.count_le _) hj
      refine ⟨r ||| if v.getLsbD (Nat.count (Selects m) j) then BitVec.twoPow w j else 0, ?_, fun i => ?_⟩
      · simp [moveBit_eq v hs hj]
      · rw [getLsbD_moved r v hj, hI i]
        by_cases he : i = j
        · subst he
          simp [show m.getLsbD i = true from hp]
        · have hiff : i < j + 1 ↔ i < j := by omega
          simp [he, hiff])
  refine ⟨r, by rw [bitExpandScalar, hr]; rfl, fun i => ?_⟩
  rw [hI i]
  by_cases hi : i < w
  · simp [hi]
  · simp [hi, BitVec.getLsbD_of_ge m i (by omega)]

/-- The lanes after `bit_expand` of a compressed lane. -/
theorem expand_compress {r s : BitVec w}
    (hr : ∀ k, r.getLsbD k = (decide (k < popcount m) && v.getLsbD (position m k)))
    (hs : ∀ i, s.getLsbD i = (m.getLsbD i && r.getLsbD (Nat.count (Selects m) i))) : s = v &&& m := by
  apply BitVec.eq_of_getLsbD_eq
  intro i hi
  rw [hs i, hr, BitVec.getLsbD_and]
  by_cases hp : Selects m i
  · have hlt : Nat.count (Selects m) i < popcount m := count_lt_count hi hp
    rw [position_count hp]
    simp [show m.getLsbD i = true from hp, hlt]
  · simp [Bool.eq_false_iff.mpr hp]

/-- The lanes after `bit_compress` of an expanded lane. -/
theorem compress_expand {r s : BitVec w} (hr : ∀ i, r.getLsbD i =
      (m.getLsbD i && v.getLsbD (Nat.count (Selects m) i)))
    (hs : ∀ k, s.getLsbD k = (decide (k < popcount m) && r.getLsbD (position m k))) :
    s = BitVec.ofNat w (v.toNat % 2 ^ popcount m) := by
  apply BitVec.eq_of_getLsbD_eq
  intro k hk
  rw [hs k, hr, BitVec.getLsbD_ofNat, Nat.testBit_mod_two_pow, BitVec.testBit_toNat]
  by_cases hlt : k < popcount m
  · obtain ⟨-, hp, hc⟩ := position_spec hlt
    rw [hc]
    simp [hlt, hk, show m.getLsbD (position m k) = true from hp]
  · simp [hlt]

/-! ## bit_reverse -/

theorem bitReverseScalar_spec (v : BitVec w) : ∃ r, bitReverseScalar v = some r ∧
    ∀ i < w, r.getLsbD i = v.getLsbD (w - 1 - i) := by
  obtain ⟨r, hr, hI⟩ := tryUp_induction (n := w) (s := (0 : BitVec w))
    (I := fun source r => ∀ i, r.getLsbD i =
      (decide (i < w) && decide (w - 1 - i < source) && v.getLsbD (w - 1 - i)))
    (f := fun source result => do
      let moved ← moveBit v source (w - source - 1)
      return result ||| moved)
    (by simp) (by
      intro source r hsource hI
      have hd : w - source - 1 < w := by omega
      refine ⟨r ||| if v.getLsbD source then BitVec.twoPow w (w - source - 1) else 0, ?_, fun i => ?_⟩
      · simp [moveBit_eq v hsource hd]
      · rw [getLsbD_moved r v hd, hI i]
        by_cases he : i = w - source - 1
        · have hback : w - 1 - i = source := by omega
          simp [he, hd, show w - 1 - (w - source - 1) = source by omega]
        · by_cases hi : i < w
          · have hiff : w - 1 - i < source + 1 ↔ w - 1 - i < source := by omega
            simp [he, hi, hiff]
          · simp [he, hi])
  refine ⟨r, hr, fun i hi => ?_⟩
  rw [hI i]
  simp [hi, show w - 1 - i < w by omega]

/-- Mirroring the positions keeps the number of selected ones, and takes their order back. -/
theorem selects_reverse {r : BitVec w} (hr : ∀ i < w, r.getLsbD i = m.getLsbD (w - 1 - i)) :
    popcount r = popcount m ∧
      ∀ k < popcount m, position r k = w - 1 - position m (popcount m - 1 - k) := by
  have hiff : ∀ i < w, Selects r i ↔ Selects m (w - 1 - i) := fun i hi => by
    rw [Selects, hr i hi]
  refine ⟨?_, fun k hk => nth_reverse (Selects r) hiff hk⟩
  have hsum := count_reverse (Selects r) hiff le_rfl
  simpa [popcount] using hsum

/-! ## What the functions do -/

/-- The bits of `r` are those that the mask selects from `v`, in order. -/
def IsCompressed (v m r : BitVec w) : Prop :=
  (∀ k < popcount m, r.getLsbD k = v.getLsbD (position m k)) ∧
    ∀ k, popcount m ≤ k → r.getLsbD k = false

/-- The low bits of `v` are in `r` at the positions that the mask selects, in order. -/
def IsExpanded (v m r : BitVec w) : Prop :=
  (∀ k < popcount m, r.getLsbD (position m k) = v.getLsbD k) ∧
    ∀ i, m.getLsbD i = false → r.getLsbD i = false

theorem isCompressed_of {r : BitVec w}
    (hr : ∀ k, r.getLsbD k = (decide (k < popcount m) && v.getLsbD (position m k))) :
    IsCompressed v m r := by
  refine ⟨fun k hk => ?_, fun k hk => ?_⟩
  · rw [hr k]
    simp [hk]
  · rw [hr k]
    simp [Nat.not_lt.mpr hk]

theorem isExpanded_of {r : BitVec w}
    (hr : ∀ i, r.getLsbD i = (m.getLsbD i && v.getLsbD (Nat.count (Selects m) i))) :
    IsExpanded v m r := by
  refine ⟨fun k hk => ?_, fun i hi => ?_⟩
  · obtain ⟨-, hp, hc⟩ := position_spec hk
    rw [hr, hc, show m.getLsbD (position m k) = true from hp, Bool.true_and]
  · rw [hr, hi, Bool.false_and]

/-- What `bit_compress` gives, `bit_expand` takes back to the mask. -/
theorem compress_then_expand (v m : BitVec w) : ∃ r, bitCompressScalar v m = some r ∧
    IsCompressed v m r ∧ bitExpandScalar r m = some (v &&& m) := by
  obtain ⟨r, hr, hbits⟩ := bitCompressScalar_spec v m
  obtain ⟨s, hs, hs'⟩ := bitExpandScalar_spec r m
  exact ⟨r, hr, isCompressed_of hbits, by rw [hs, expand_compress hbits hs']⟩

theorem expand_then_compress (v m : BitVec w) : ∃ r, bitExpandScalar v m = some r ∧
    IsExpanded v m r ∧ bitCompressScalar r m = some (BitVec.ofNat w (v.toNat % 2 ^ popcount m)) := by
  obtain ⟨r, hr, hbits⟩ := bitExpandScalar_spec v m
  obtain ⟨s, hs, hs'⟩ := bitCompressScalar_spec r m
  exact ⟨r, hr, isExpanded_of hbits, by rw [hs, compress_expand hbits hs']⟩

/-- The bits of `r` are those of `v` mirrored. -/
def IsReversed (v r : BitVec w) : Prop := ∀ i < w, r.getLsbD i = v.getLsbD (w - 1 - i)

theorem reverse_then_reverse (v : BitVec w) : ∃ r, bitReverseScalar v = some r ∧
    IsReversed v r ∧ bitReverseScalar r = some v := by
  obtain ⟨r, hr, hreverse⟩ := bitReverseScalar_spec v
  obtain ⟨s, hs, hback⟩ := bitReverseScalar_spec r
  refine ⟨r, hr, hreverse, ?_⟩
  rw [hs]
  congr 1
  apply BitVec.eq_of_getLsbD_eq
  intro i hi
  rw [hback i hi, hreverse _ (by omega), show w - 1 - (w - 1 - i) = i by omega]

/-- Compressing mirrored lanes gives the selected bits in the other order. -/
theorem compress_reversed {v' m' r r' : BitVec w} (hv : IsReversed v v') (hm : IsReversed m m')
    (hr : IsCompressed v m r) (hr' : IsCompressed v' m' r') (hk : k < popcount m) :
    r'.getLsbD k = r.getLsbD (popcount m - 1 - k) := by
  -- position `k` from below in the mirrored mask is position `k` from above in the mask
  obtain ⟨hcount, hposition⟩ := selects_reverse hm
  have hk' : popcount m - 1 - k < popcount m := by omega
  obtain ⟨hlt, -, -⟩ := position_spec hk'
  rw [hr'.1 k (by omega), hr.1 _ hk', hposition k hk, hv _ (by omega),
    show w - 1 - (w - 1 - position m (popcount m - 1 - k)) = position m (popcount m - 1 - k) by omega]

/-- In each lane, `bit_compress` and `bit_expand` are mutually inverse on the mask, and `bit_reverse`
mirrors what `bit_compress` gives. -/
theorem bit_permutations (v m : Vec (BitVec w) n) :
    (∃ compressed, bitCompress v m = some compressed ∧ (∀ i, IsCompressed (v i) (m i) (compressed i)) ∧
      bitExpand compressed m = some fun i => v i &&& m i) ∧
    (∃ expanded, bitExpand v m = some expanded ∧ (∀ i, IsExpanded (v i) (m i) (expanded i)) ∧
      bitCompress expanded m = some fun i => BitVec.ofNat w ((v i).toNat % 2 ^ popcount (m i))) ∧
    (∃ v' m', bitReverse v = some v' ∧ bitReverse m = some m' ∧ (∀ i, IsReversed (v i) (v' i)) ∧
      bitReverse v' = some v ∧
      ∃ compressed compressed', bitCompress v m = some compressed ∧ bitCompress v' m' = some compressed' ∧
        ∀ i, ∀ k < popcount (m i),
          (compressed' i).getLsbD k = (compressed i).getLsbD (popcount (m i) - 1 - k)) ∧
    ∀ mask, bitCompressMask v mask = bitCompress v (fun _ => mask) ∧
      bitExpandMask v mask = bitExpand v fun _ => mask := by
  -- every function works on each lane alone
  choose compressed hcompressed hIs hback using fun i => compress_then_expand (v i) (m i)
  choose expanded hexpanded hIs' hback' using fun i => expand_then_compress (v i) (m i)
  choose v' hv' hreversed hagain using fun i => reverse_then_reverse (v i)
  choose m' hm' hreversed' _ using fun i => reverse_then_reverse (m i)
  choose compressed' hcompressed' hIs'' _ using fun i => compress_then_expand (v' i) (m' i)
  have hbitCompress : bitCompress v m = some compressed :=
    tryUp_setLane fun i => by simpa [lane_fin] using hcompressed i
  refine ⟨⟨compressed, hbitCompress, hIs, ?_⟩, ⟨expanded, ?_, hIs', ?_⟩,
    ⟨v', m', ?_, ?_, hreversed, ?_, compressed, compressed', hbitCompress, ?_, fun i k hk =>
      compress_reversed (hreversed i) (hreversed' i) (hIs i) (hIs'' i) hk⟩, fun mask => ⟨?_, ?_⟩⟩
  · exact tryUp_setLane fun i => by simpa [lane_fin] using hback i
  · exact tryUp_setLane fun i => by simpa [lane_fin] using hexpanded i
  · exact tryUp_setLane fun i => by simpa [lane_fin] using hback' i
  · exact tryUp_setLane fun i => by simpa [lane_fin] using hv' i
  · exact tryUp_setLane fun i => by simpa [lane_fin] using hm' i
  · exact tryUp_setLane fun i => by simpa [lane_fin] using hagain i
  · exact tryUp_setLane fun i => by simpa [lane_fin] using hcompressed' i
  · choose r hr _ _ using fun i => compress_then_expand (v i) mask
    have hmask : bitCompressMask v mask = some r :=
      tryUp_setLane fun i => by simpa [lane_fin] using hr i
    rw [hmask]
    exact (tryUp_setLane fun i => by simpa [lane_fin] using hr i).symm
  · choose r hr _ _ using fun i => expand_then_compress (v i) mask
    have hmask : bitExpandMask v mask = some r :=
      tryUp_setLane fun i => by simpa [lane_fin] using hr i
    rw [hmask]
    exact (tryUp_setLane fun i => by simpa [lane_fin] using hr i).symm

end CCForge.BasicVec
