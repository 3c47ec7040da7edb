import CCForge.BasicVec.Lanes
import CCForge.Linalg.IndexType
import Mathlib.Data.Fin.VecNotation
import Mathlib.Data.Finset.Max
import Mathlib.Data.Fintype.Basic

/-!
# Gathering and scattering

The indices of `partial_gather_from` and `partial_scatter_to` may have any integral type, and only
those below the number of elements take part.
-/

namespace CCForge.BasicVec

open CCForge.Linalg (IndexType)
open CCForge.Loops

/-- `is_gather_scatter_index_in_range`. -/
def isGatherScatterIndexInRange (I C : IndexType) (index count : ℤ) : Bool :=
  if count ≤ 0 then false
  else if I.signed ∧ index < 0 then false
  else
    let U := (I.commonType C).makeUnsigned
    decide (U.convert index < U.convert count)

variable {α β : Type} {n m : ℕ} {I C : IndexType}

/-- `*(first + offset)`. -/
def load (memory : Vec β m) (offset : ℤ) : Option β :=
  if 0 ≤ offset then lane memory offset.toNat else none

/-- `*(first + offset) = x`. -/
def store (memory : Vec β m) (offset : ℤ) (x : β) : Option (Vec β m) :=
  if 0 ≤ offset then setLane memory offset.toNat x else none

/-- `partial_gather_from`, where `selected` is the condition besides the range. -/
def gatherLanes [Inhabited α] (I C : IndexType) (toLane : β → α) (memory : Vec β m) (count : ℤ)
    (selected : ℕ → Option Bool) (indices : Vec ℤ n) : Option (Vec α n) :=
  if 0 ≤ count then
    tryUp n (fun i result => (do
      let index ← lane indices i
      let chosen ← selected i
      if chosen && isGatherScatterIndexInRange I C index count then
        (load memory (C.convert index)).map toLane
      else some default).bind (setLane result i)) default
  else none

/-- `partial_gather_from`. -/
def partialGatherFrom [Inhabited α] (I C : IndexType) (toLane : β → α) (memory : Vec β m) (count : ℤ)
    (indices : Vec ℤ n) : Option (Vec α n) :=
  gatherLanes I C toLane memory count (fun _ => some true) indices

/-- `partial_gather_from` with a mask. -/
def partialGatherFromMasked [Inhabited α] (I C : IndexType) (toLane : β → α) (memory : Vec β m)
    (count : ℤ) (mask : Vec Bool n) (indices : Vec ℤ n) : Option (Vec α n) :=
  gatherLanes I C toLane memory count (lane mask) indices

/-- `partial_scatter_to`, where `selected` is the condition besides the range. -/
def scatterLanes (I C : IndexType) (toElement : α → β) (value : Vec α n) (memory : Vec β m) (count : ℤ)
    (selected : ℕ → Option Bool) (indices : Vec ℤ n) : Option (Vec β m) :=
  if 0 ≤ count then
    tryUp n (fun i memory => do
      let index ← lane indices i
      let chosen ← selected i
      if chosen && isGatherScatterIndexInRange I C index count then
        let v ← lane value i
        store memory (C.convert index) (toElement v)
      else some memory) memory
  else none

/-- `partial_scatter_to`. -/
def partialScatterTo (I C : IndexType) (toElement : α → β) (value : Vec α n) (memory : Vec β m)
    (count : ℤ) (indices : Vec ℤ n) : Option (Vec β m) :=
  scatterLanes I C toElement value memory count (fun _ => some true) indices

/-- `partial_scatter_to` with a mask. -/
def partialScatterToMasked (I C : IndexType) (toElement : α → β) (value : Vec α n) (memory : Vec β m)
    (count : ℤ) (mask : Vec Bool n) (indices : Vec ℤ n) : Option (Vec β m) :=
  scatterLanes I C toElement value memory count (lane mask) indices

/-! ## The range -/

/-- The range test compares mathematical integers. -/
theorem inRange_iff {index count : ℤ} (hi : I.Holds index) (hc : C.Holds count) :
    isGatherScatterIndexInRange I C index count = true ↔ 0 ≤ index ∧ index < count := by
  unfold isGatherScatterIndexInRange
  split
  · simp only [Bool.false_eq_true, false_iff]
    omega
  · rename_i hcount
    split
    · rename_i hneg
      simp only [Bool.false_eq_true, false_iff]
      omega
    · rename_i hsigned
      have h0 : 0 ≤ index := by
        cases hs : I.signed with
        | true =>
          by_contra hneg
          exact hsigned ⟨hs, by omega⟩
        | false =>
          have hlo := hi.1
          rwa [IndexType.min_unsigned hs] at hlo
      obtain ⟨hleft, hright⟩ := IndexType.max_le_common I C
      dsimp only
      rw [IndexType.convert_of_nonneg h0 (hi.2.trans (by exact_mod_cast hleft)),
        IndexType.convert_of_nonneg (by omega) (hc.2.trans (by exact_mod_cast hright)), decide_eq_true_eq]
      exact ⟨fun h => ⟨h0, h⟩, fun h => h.2⟩

/-! ## One call -/

variable {mask : Vec Bool n} {indices : Vec ℤ n} {value : Vec α n} {memory : Vec β m}
  {toLane : β → α} {toElement : α → β} {selected : ℕ → Option Bool}

/-- Lane `i` takes part and addresses element `k`. -/
def Addresses (mask : Vec Bool n) (indices : Vec ℤ n) (i : Fin n) (k : Fin m) : Prop :=
  mask i = true ∧ indices i = (k : ℕ)

/-- The mask has the lane, and its index is in range. -/
def Active (mask : Vec Bool n) (indices : Vec ℤ n) (count : ℤ) (i : Fin n) : Prop :=
  mask i = true ∧ 0 ≤ indices i ∧ indices i < count

/-- No lane with a higher number than `j` addresses element `k`. -/
def AddressesLast (mask : Vec Bool n) (indices : Vec ℤ n) (j : Fin n) (k : Fin m) : Prop :=
  Addresses mask indices j k ∧ ∀ i, j < i → ¬Addresses mask indices i k

theorem active_iff (i : Fin n) :
    Active mask indices m i ↔ ∃ k : Fin m, Addresses mask indices i k := by
  constructor
  · rintro ⟨hm, h0, hlt⟩
    exact ⟨⟨(indices i).toNat, by omega⟩, hm, by simp [h0]⟩
  · rintro ⟨k, hm, hk⟩
    exact ⟨hm, by omega, by omega⟩

theorem exists_addressesLast {i : Fin n} {k : Fin m} (h : Addresses mask indices i k) :
    ∃ j, AddressesLast mask indices j k := by
  classical
  obtain ⟨j, hj, hmax⟩ := Finset.exists_max_image
    (Finset.univ.filter fun i => Addresses mask indices i k) id ⟨i, by simpa using h⟩
  refine ⟨j, (Finset.mem_filter.mp hj).2, fun i hi hk => ?_⟩
  exact absurd (hmax i (by simpa using hk)) (not_le.mpr hi)

theorem load_of_eq {offset : ℤ} {k : Fin m} (h : offset = (k : ℕ)) : load memory offset = some (memory k) := by
  rw [load, if_pos (by omega), h, Int.toNat_natCast, lane_fin]

theorem store_of_eq {offset : ℤ} {k : Fin m} {x : β} (h : offset = (k : ℕ)) :
    store memory offset x = some (Function.update memory k x) := by
  rw [store, if_pos (by omega), h, Int.toNat_natCast, setLane_of_lt k.isLt]

/-- What the test of a lane gives. -/
theorem test_iff (hI : ∀ i, I.Holds (indices i)) (hm : (m : ℤ) ≤ C.max) (i : Fin n) :
    (mask i && isGatherScatterIndexInRange I C (indices i) m) = true ↔
      ∃ k : Fin m, Addresses mask indices i k := by
  rw [Bool.and_eq_true, inRange_iff (hI i) (IndexType.holds_of_nonneg (by omega) hm)]
  exact active_iff i

/-- The offset of a lane in range is its index. -/
theorem convert_index {i : Fin n} {k : Fin m} (hm : (m : ℤ) ≤ C.max) (h : Addresses mask indices i k) :
    C.convert (indices i) = (k : ℕ) := by
  rw [h.2]
  exact IndexType.convert_of_nonneg (by omega) (by omega)

/-- The lanes of `result` are the addressed elements, and value-initialised where there is none. -/
structure IsGathered [Inhabited α] (toLane : β → α) (memory : Vec β m) (mask : Vec Bool n)
    (indices : Vec ℤ n) (result : Vec α n) : Prop where
  active : ∀ i k, Addresses mask indices i k → result i = toLane (memory k)
  inactive : ∀ i, ¬Active mask indices m i → result i = default

theorem gatherLanes_spec [Inhabited α] (hI : ∀ i, I.Holds (indices i)) (hm : (m : ℤ) ≤ C.max)
    (hselected : ∀ i : Fin n, selected i = some (mask i)) (toLane : β → α) (memory : Vec β m) :
    ∃ result, gatherLanes I C toLane memory m selected indices = some result ∧
      IsGathered toLane memory mask indices result := by
  have hlane (i : Fin n) : ∃ x : α, (do
      let index ← lane indices i
      let chosen ← selected i
      if chosen && isGatherScatterIndexInRange I C index m then
        (load memory (C.convert index)).map toLane
      else some default) = some x ∧ (∀ k, Addresses mask indices i k → x = toLane (memory k)) ∧
        (¬Active mask indices m i → x = default) := by
    simp only [lane_fin, hselected i, Option.bind_eq_bind, Option.bind_some]
    by_cases h : ∃ k : Fin m, Addresses mask indices i k
    · rw [if_pos ((test_iff hI hm i).mpr h)]
      obtain ⟨k, hk⟩ := h
      refine ⟨toLane (memory k), by rw [load_of_eq (convert_index hm hk)]; rfl, fun k' hk' => ?_,
        fun hactive => absurd ((active_iff i).mpr ⟨k, hk⟩) hactive⟩
      -- one index addresses one element
      have heq : k = k' := Fin.ext (by have := hk.2.symm.trans hk'.2; omega)
      rw [heq]
    · rw [if_neg fun htest => h ((test_iff hI hm i).mp htest)]
      exact ⟨default, rfl, fun k hk => absurd ⟨k, hk⟩ h, fun _ => rfl⟩
  choose result hresult hactive hinactive using hlane
  refine ⟨result, ?_, hactive, hinactive⟩
  rw [gatherLanes, if_pos (by omega)]
  exact tryUp_setLane hresult

/-- Each addressed element has the value of the highest lane that addresses it. -/
structure IsScattered (toElement : α → β) (value : Vec α n) (memory : Vec β m) (mask : Vec Bool n)
    (indices : Vec ℤ n) (result : Vec β m) : Prop where
  addressed : ∀ j k, AddressesLast mask indices j k → result k = toElement (value j)
  rest : ∀ k, (∀ j, ¬Addresses mask indices j k) → result k = memory k

/-- The lanes below `i` were scattered. -/
structure ScatteredBelow (toElement : α → β) (value : Vec α n) (memory : Vec β m) (mask : Vec Bool n)
    (indices : Vec ℤ n) (i : ℕ) (result : Vec β m) : Prop where
  addressed : ∀ (j : Fin n) k, j < i → Addresses mask indices j k →
    (∀ j' : Fin n, j < j' → j' < i → ¬Addresses mask indices j' k) → result k = toElement (value j)
  rest : ∀ k, (∀ j : Fin n, j < i → ¬Addresses mask indices j k) → result k = memory k

theorem ScatteredBelow.skip {result : Vec β m} {i : Fin n}
    (h : ScatteredBelow toElement value memory mask indices i result)
    (hi : ¬∃ k : Fin m, Addresses mask indices i k) :
    ScatteredBelow toElement value memory mask indices (i + 1) result where
  addressed := by
    intro j k hj hk hlast
    rcases Nat.lt_succ_iff_lt_or_eq.mp hj with hlt | heq
    · exact h.addressed j k hlt hk fun j' hj' hlt' => hlast j' hj' (by omega)
    · rw [Fin.ext heq] at hk
      exact absurd ⟨k, hk⟩ hi
  rest := fun k hk => h.rest k fun j hj => hk j (by omega)

theorem ScatteredBelow.write {result : Vec β m} {i : Fin n} {k : Fin m}
    (h : ScatteredBelow toElement value memory mask indices i result) (hk : Addresses mask indices i k) :
    ScatteredBelow toElement value memory mask indices (i + 1)
      (Function.update result k (toElement (value i))) where
  addressed := by
    intro j k' hj hk' hlast
    rcases Nat.lt_succ_iff_lt_or_eq.mp hj with hlt | heq
    -- a lane below keeps its element unless this lane addresses it too
    · have hne : k' ≠ k := by
        rintro rfl
        exact hlast i hlt (Nat.lt_succ_self _) hk
      rw [Function.update_of_ne hne]
      exact h.addressed j k' hlt hk' fun j' hj' hlt' => hlast j' hj' (by omega)
    · obtain rfl := Fin.ext heq
      have he : k = k' := Fin.ext (by have := hk.2.symm.trans hk'.2; omega)
      rw [he, Function.update_self]
  rest := by
    intro k' hk'
    have hne : k' ≠ k := by
      rintro rfl
      exact hk' i (Nat.lt_succ_self _) hk
    rw [Function.update_of_ne hne]
    exact h.rest k' fun j hj => hk' j (by omega)

theorem scatterLanes_spec (hI : ∀ i, I.Holds (indices i)) (hm : (m : ℤ) ≤ C.max)
    (hselected : ∀ i : Fin n, selected i = some (mask i)) (toElement : α → β) (value : Vec α n)
    (memory : Vec β m) : ∃ result,
      scatterLanes I C toElement value memory m selected indices = some result ∧
        IsScattered toElement value memory mask indices result := by
  obtain ⟨result, hresult, hbelow⟩ := tryUp_induction (n := n) (s := memory)
    (I := ScatteredBelow toElement value memory mask indices)
    (f := fun i memory => do
      let index ← lane indices i
      let chosen ← selected i
      if chosen && isGatherScatterIndexInRange I C index m then
        let v ← lane value i
        store memory (C.convert index) (toElement v)
      else some memory)
    ⟨fun j k hj => absurd hj (Nat.not_lt_zero _), fun _ _ => rfl⟩ (by
      intro i s hi hs
      have hlanes := And.intro (lane_of_lt (v := indices) hi) (lane_of_lt (v := value) hi)
      simp only [hlanes, hselected ⟨i, hi⟩, Option.bind_eq_bind, Option.bind_some]
      by_cases h : ∃ k : Fin m, Addresses mask indices ⟨i, hi⟩ k
      · rw [if_pos ((test_iff hI hm ⟨i, hi⟩).mpr h)]
        obtain ⟨k, hk⟩ := h
        exact ⟨_, store_of_eq (convert_index hm hk), hs.write hk⟩
      · rw [if_neg fun htest => h ((test_iff hI hm ⟨i, hi⟩).mp htest)]
        exact ⟨s, rfl, hs.skip (i := ⟨i, hi⟩) h⟩)
  refine ⟨result, by rw [scatterLanes, if_pos (by omega)]; exact hresult, fun j k hlast => ?_,
    fun k hk => hbelow.rest k fun j _ => hk j⟩
  exact hbelow.addressed j k j.isLt hlast.1 fun j' hj' _ => hlast.2 j' hj'

/-! ## Both directions -/

/-- No two lanes address one element. -/
def DistinctIndices (mask : Vec Bool n) (indices : Vec ℤ n) (m : ℕ) : Prop :=
  ∀ i j, ∀ k : Fin m, Addresses mask indices i k → Addresses mask indices j k → i = j

/-- Gathering from what was scattered. -/
theorem IsGathered.of_scattered [Inhabited α] {memory' : Vec β m} {result : Vec α n} {i : Fin n}
    (h : IsGathered toLane memory' mask indices result)
    (hs : IsScattered toElement value memory mask indices memory') (hi : Active mask indices m i) :
    ∃ j, ∃ k : Fin m, Addresses mask indices i k ∧ AddressesLast mask indices j k ∧
      result i = toLane (toElement (value j)) := by
  obtain ⟨k, hk⟩ := (active_iff i).mp hi
  obtain ⟨j, hj⟩ := exists_addressesLast hk
  exact ⟨j, k, hk, hj, by rw [h.active i k hk, hs.addressed j k hj]⟩

/-- Scattering what was gathered. -/
theorem IsScattered.of_gathered [Inhabited α] {memory' : Vec β m} {result : Vec α n}
    (h : IsScattered toElement result memory mask indices memory')
    (hg : IsGathered toLane memory mask indices result) (hinverse : ∀ x, toElement (toLane x) = x) :
    memory' = memory := by
  funext k
  by_cases hk : ∃ i, Addresses mask indices i k
  · obtain ⟨i, hi⟩ := hk
    obtain ⟨j, hj⟩ := exists_addressesLast hi
    -- the highest lane at `k` writes back what it read there
    rw [h.addressed j k hj, hg.active j k hj.1, hinverse]
  · exact h.rest k fun j hj => hk ⟨j, hj⟩

/-- `gather` and `scatter` access the addressed elements alone and take each other's effect back, as far
as the conversions do. -/
structure GatherScatter [Inhabited α] (toLane : β → α) (toElement : α → β)
    (gather : Vec β m → Option (Vec α n)) (scatter : Vec α n → Vec β m → Option (Vec β m))
    (mask : Vec Bool n) (indices : Vec ℤ n) : Prop where
  gathered : ∀ memory, ∃ result, gather memory = some result ∧
    IsGathered toLane memory mask indices result
  scattered : ∀ value memory, ∃ memory', scatter value memory = some memory' ∧
    IsScattered toElement value memory mask indices memory'
  gather_scatter : ∀ value memory, ∃ memory' result, scatter value memory = some memory' ∧
    gather memory' = some result ∧
      (∀ i, Active mask indices m i → ∃ j, ∃ k : Fin m, Addresses mask indices i k ∧
        AddressesLast mask indices j k ∧ result i = toLane (toElement (value j))) ∧
      (DistinctIndices mask indices m →
        ∀ i, Active mask indices m i → result i = toLane (toElement (value i)))
  scatter_gather : (∀ x, toElement (toLane x) = x) → ∀ memory, ∃ result, gather memory = some result ∧
    scatter result memory = some memory

theorem gatherLanes_scatterLanes [Inhabited α] (hI : ∀ i, I.Holds (indices i)) (hm : (m : ℤ) ≤ C.max)
    (hselected : ∀ i : Fin n, selected i = some (mask i)) (toLane : β → α) (toElement : α → β) :
    GatherScatter toLane toElement
      (fun memory : Vec β m => gatherLanes I C toLane memory m selected indices)
      (fun value memory => scatterLanes I C toElement value memory m selected indices) mask indices where
  gathered := gatherLanes_spec hI hm hselected toLane
  scattered := scatterLanes_spec hI hm hselected toElement
  gather_scatter := by
    intro value memory
    obtain ⟨memory', hmemory', hs⟩ := scatterLanes_spec hI hm hselected toElement value memory
    obtain ⟨result, hresult, hg⟩ := gatherLanes_spec hI hm hselected toLane memory'
    refine ⟨memory', result, hmemory', hresult, fun i hi => hg.of_scattered hs hi, fun hdistinct i hi => ?_⟩
    obtain ⟨j, k, hk, hj, heq⟩ := hg.of_scattered hs hi
    rw [heq, hdistinct i j k hk hj.1]
  scatter_gather := by
    intro hinverse memory
    obtain ⟨result, hresult, hg⟩ := gatherLanes_spec hI hm hselected toLane memory
    obtain ⟨memory', hmemory', hs⟩ := scatterLanes_spec hI hm hselected toElement result memory
    refine ⟨result, hresult, ?_⟩
    show scatterLanes I C toElement result memory m selected indices = some memory
    rw [hmemory', hs.of_gathered hg hinverse]

/-- With indices of any type and as many elements as `simd_size_type` counts, the lanes in range are the
active ones, and `partial_gather_from` and `partial_scatter_to` invert each other, with a mask and
without. -/
theorem partial_gather_scatter [Inhabited α] (I C : IndexType) (toLane : β → α) (toElement : α → β)
    (mask : Vec Bool n) (indices : Vec ℤ n) (hI : ∀ i, I.Holds (indices i)) (hm : (m : ℤ) ≤ C.max) :
    (∀ i, isGatherScatterIndexInRange I C (indices i) m = true ↔ 0 ≤ indices i ∧ indices i < m) ∧
    GatherScatter toLane toElement
      (fun memory : Vec β m => partialGatherFromMasked I C toLane memory m mask indices)
      (fun value memory => partialScatterToMasked I C toElement value memory m mask indices) mask indices ∧
    GatherScatter toLane toElement
      (fun memory : Vec β m => partialGatherFrom I C toLane memory m indices)
      (fun value memory => partialScatterTo I C toElement value memory m indices) (fun _ => true) indices :=
  ⟨fun i => inRange_iff (hI i) (IndexType.holds_of_nonneg (by omega) hm),
    gatherLanes_scatterLanes hI hm (lane_fin mask) toLane toElement,
    gatherLanes_scatterLanes hI hm (fun _ => rfl) toLane toElement⟩

/-- Three elements and four lanes with byte indices, of which one is out of range. -/
theorem partial_gather_scatter_bytes :
    GatherScatter id id
      (fun memory : Vec ℕ 3 => partialGatherFromMasked ⟨8, false⟩ ⟨64, true⟩ id memory (3 : ℕ)
        ![true, true, false, true] ![2, 255, 0, 2])
      (fun value memory => partialScatterToMasked ⟨8, false⟩ ⟨64, true⟩ id value memory (3 : ℕ)
        ![true, true, false, true] ![2, 255, 0, 2]) ![true, true, false, true] ![2, 255, 0, 2] :=
  (partial_gather_scatter ⟨8, false⟩ ⟨64, true⟩ id id ![true, true, false, true] ![2, 255, 0, 2]
    (by decide) (by decide)).2.1

end CCForge.BasicVec
