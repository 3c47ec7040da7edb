import CCForge.BasicVec.BitGuarantees

/-!
# What bit_repeat does

`bit_repeat` with a vector of lengths converts each length to `int`, which changes a length beyond
`INT_MAX`.
-/

namespace CCForge.BasicVec

open CCForge.Linalg (IndexType)
open CCForge.Loops

variable {w n : ℕ} {v : BitVec w} {l : ℤ} {ndebug : Bool}

/-- The bits of `r` are the lowest `length` bits of `v`, again and again. -/
def IsRepeated (v : BitVec w) (length : ℕ) (r : BitVec w) : Prop :=
  (∀ k < w, r.getLsbD k = v.getLsbD (k % length)) ∧ (w ≤ length → r = v)

theorem isRepeated_iff {length : ℕ} {r : BitVec w} :
    IsRepeated v length r ↔ ∀ k < w, r.getLsbD k = v.getLsbD (k % length) := by
  refine ⟨fun h => h.1, fun h => ⟨h, fun hle => ?_⟩⟩
  apply BitVec.eq_of_getLsbD_eq
  intro k hk
  rw [h k hk, Nat.mod_eq_of_lt (by omega)]

/-- With a positive `int`, the lane is repeated. -/
theorem bitRepeatScalar_spec (ndebug : Bool) (h0 : 0 < l) (h : l ≤ IndexType.int.max) :
    ∃ r, bitRepeatScalar ndebug v l = some r ∧ ∀ k < w, r.getLsbD k = v.getLsbD (k % l.toNat) := by
  have hint : (IndexType.int.max : ℤ) = 2 ^ 31 - 1 := rfl
  have hunsigned : (unsignedInt.max : ℤ) = 2 ^ 32 - 1 := rfl
  have hpattern : (unsignedInt.convert l).toNat = l.toNat := by
    rw [IndexType.convert_of_nonneg h0.le (by omega)]
  obtain ⟨r, hr, hI⟩ := tryUp_induction (n := w) (s := (0 : BitVec w))
    (I := fun j r => ∀ k, r.getLsbD k =
      (decide (k < j) && v.getLsbD (k % l.toNat)))
    (f := fun destination result => do
      let source := destination % l.toNat
      let moved ← moveBit v source destination
      return result ||| moved)
    (by simp) (by
      intro j r hj hI
      have hs : j % l.toNat < w := lt_of_le_of_lt (Nat.mod_le _ _) hj
      refine ⟨r ||| if v.getLsbD (j % l.toNat) then BitVec.twoPow w j else 0, ?_, fun k => ?_⟩
      · simp [moveBit_eq v hs hj]
      -- the bits below `j` are in place, and bit `j` comes from its position in the pattern
      · rw [getLsbD_moved r v hj, hI k]
        by_cases he : k = j
        · simp [he]
        · have hiff : k < j + 1 ↔ k < j := by omega
          simp [he, hiff])
  refine ⟨r, ?_, fun k hk => ?_⟩
  · rw [bitRepeatScalar, if_neg (by omega), hpattern]
    exact hr
  · rw [hI k]
    simp [hk]

theorem bitRepeatScalar_nonpos (h : l ≤ 0) :
    bitRepeatScalar ndebug v l = if ndebug then some 0 else none := if_pos h

/-- The length fits `int`; or what is left of it by the conversion has the same effect on this lane. -/
def LengthConverts (ndebug : Bool) (v : BitVec w) (length : ℤ) : Prop :=
  length ≤ IndexType.int.max ∨
  (0 < IndexType.int.convert length ∧
    ∀ k < w, v.getLsbD k = v.getLsbD (k % (IndexType.int.convert length).toNat)) ∨
  (ndebug = true ∧ IndexType.int.convert length ≤ 0 ∧ v = 0)

/-- One lane, with the conversion. -/
theorem bitRepeatScalar_iff (hw : w ≤ 64) (h0 : 0 < l) :
    (∃ r, bitRepeatScalar ndebug v (IndexType.int.convert l) = some r ∧ IsRepeated v l.toNat r) ↔
      LengthConverts ndebug v l := by
  have hint : (IndexType.int.max : ℤ) = 2 ^ 31 - 1 := rfl
  by_cases hfits : l ≤ IndexType.int.max
  · refine ⟨fun _ => .inl hfits, fun _ => ?_⟩
    rw [IndexType.convert_of_nonneg h0.le hfits]
    obtain ⟨r, hr, hbits⟩ := bitRepeatScalar_spec (v := v) ndebug h0 hfits
    exact ⟨r, hr, isRepeated_iff.mpr hbits⟩
  -- A length beyond `INT_MAX` is larger than any lane, which is to come back unchanged.
  have hwhole (k : ℕ) (hk : k < w) : k % l.toNat = k := Nat.mod_eq_of_lt (by omega)
  by_cases hpos : 0 < IndexType.int.convert l
  · obtain ⟨r, hr, hbits⟩ := bitRepeatScalar_spec (v := v) ndebug hpos
      (IndexType.holds_convert (by decide) l).2
    rw [hr]
    constructor
    · rintro ⟨s, hs, hrepeated, -⟩
      cases hs
      refine .inr (.inl ⟨hpos, fun k hk => ?_⟩)
      rw [← hbits k hk, hrepeated k hk, hwhole k hk]
    · rintro (h | ⟨-, hperiod⟩ | ⟨-, hneg, -⟩)
      · exact absurd h hfits
      · refine ⟨r, rfl, isRepeated_iff.mpr fun k hk => ?_⟩
        rw [hbits k hk, hwhole k hk, ← hperiod k hk]
      · exact absurd hpos (by omega)
  · rw [bitRepeatScalar_nonpos (by omega)]
    constructor
    · rintro ⟨s, hs, hrepeated, -⟩
      cases ndebug with
      | false => cases hs
      | true =>
        cases hs
        refine .inr (.inr ⟨rfl, by omega, ?_⟩)
        apply BitVec.eq_of_getLsbD_eq
        intro k hk
        rw [hrepeated k hk, hwhole k hk]
    · rintro (h | ⟨h, -⟩ | ⟨rfl, -, rfl⟩)
      · exact absurd h hfits
      · exact absurd h hpos
      · exact ⟨0, rfl, isRepeated_iff.mpr fun k hk => by simp⟩

theorem bitRepeat_lane {value r : Vec (BitVec w) n} {length : Vec ℤ n}
    (h : bitRepeat ndebug value length = some r) (i : Fin n) :
    bitRepeatScalar ndebug (value i) (IndexType.int.convert (length i)) = some (r i) := by
  have hlane := of_tryUp_setLane h i
  simpa [lane_fin] using hlane

/-- `bit_repeat` repeats the low bits of every lane if and only if each length fits `int`, or has the
same effect on its lane when it is converted. The two overloads agree on an `int`. -/
theorem bit_repeat_iff (hw : w ≤ 64) (value : Vec (BitVec w) n) :
    (∀ length : Vec ℤ n, (∀ i, 0 < length i) →
      ((∃ r, bitRepeat ndebug value length = some r ∧ ∀ i, IsRepeated (value i) (length i).toNat (r i)) ↔
        ∀ i, LengthConverts ndebug (value i) (length i))) ∧
    ∀ l, IndexType.int.Holds l → bitRepeat ndebug value (fun _ => l) = bitRepeatInt ndebug value l := by
  refine ⟨fun length h0 => ⟨?_, fun h => ?_⟩, fun l hl => ?_⟩
  · rintro ⟨r, hr, hrepeated⟩ i
    exact (bitRepeatScalar_iff hw (h0 i)).mp ⟨r i, bitRepeat_lane hr i, hrepeated i⟩
  · choose r hr hrepeated using fun i => (bitRepeatScalar_iff hw (h0 i)).mpr (h i)
    exact ⟨r, tryUp_setLane fun i => by simpa [lane_fin] using hr i, hrepeated⟩
  · unfold bitRepeat bitRepeatInt
    refine tryUp_congr fun i s hi => ?_
    rw [show i = (⟨i, hi⟩ : Fin n).val from rfl, lane_fin, lane_fin]
    simp only [Option.bind_eq_bind, Option.bind_some]
    rw [IndexType.convert_of_holds (by decide) hl]

/-- Two 32-bit and two 64-bit lanes' worth of one length each. -/
theorem bit_repeat_iff_lanes : ∃ r : Vec (BitVec 32) 2,
    bitRepeat false ![0xA5, 0x3] ![4, 2147483647] = some r ∧
      IsRepeated 0xA5 4 (r 0) ∧ IsRepeated 0x3 2147483647 (r 1) := by
  obtain ⟨r, hr, hrepeated⟩ := ((@bit_repeat_iff 32 2 false (by decide)
    ![0xA5, 0x3]).1 ![4, 2147483647] (by decide)).mpr
      fun i => .inl (by revert i; decide)
  exact ⟨r, hr, hrepeated 0, hrepeated 1⟩

/-- A 64-bit length is cut to its low half, and a length that becomes negative is refused. -/
theorem bit_repeat_truncates_length :
    (¬∃ r, bitRepeat true (![2] : Vec (BitVec 64) 1) ![4294967297] = some r ∧
      ∀ i, IsRepeated ((![2] : Vec (BitVec 64) 1) i) ((![4294967297] : Vec ℤ 1) i).toNat (r i)) ∧
    bitRepeat false (![1] : Vec (BitVec 32) 1) ![2147483648] = none := by
  constructor
  · rintro ⟨r, hr, hrepeated⟩
    have hconverts := (bitRepeatScalar_iff (by decide) (by decide)).mp
      ⟨r 0, bitRepeat_lane hr 0, hrepeated 0⟩
    rcases hconverts with h | ⟨-, h⟩ | ⟨-, h, -⟩
    · revert h
      decide
    · have hbit := h 1 (by decide)
      revert hbit
      decide
    · revert h
      decide
  · decide

end CCForge.BasicVec
