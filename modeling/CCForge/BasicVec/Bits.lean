import CCForge.BasicVec.Lanes
import CCForge.BasicVec.Shifts

/-!
# Bit permutations of unsigned lanes

`bit_reverse`, `bit_repeat`, `bit_compress` and `bit_expand` move the bits of a lane one by one. An
operator promotes a lane narrower than `int` to an `int` of the same value.
-/

namespace CCForge.BasicVec

open CCForge.Linalg (IndexType)
open CCForge.Loops (tryUp cursorUp)

variable {w n : ℕ}

/-- The width of a promoted lane. -/
def promotedWidth (w : ℕ) : ℕ := max w IndexType.int.width

def promote (x : BitVec w) : BitVec (promotedWidth w) := x.setWidth (promotedWidth w)

/-- `>>`. An `int` is filled with its sign. -/
def shiftRightBits (w : ℕ) (x : BitVec (promotedWidth w)) (amount : ℕ) :
    Option (BitVec (promotedWidth w)) :=
  if amount < promotedWidth w then
    some (if w < IndexType.int.width then x.sshiftRight amount else x >>> amount)
  else none

/-- `<<`. -/
def shiftLeftBits (x : BitVec (promotedWidth w)) (amount : ℕ) : Option (BitVec (promotedWidth w)) :=
  if amount < promotedWidth w then some (x <<< amount) else none

/-- `(value >> source) & T{1}`. -/
def bitAt (value : BitVec w) (source : ℕ) : Option (BitVec (promotedWidth w)) := do
  let shifted ← shiftRightBits w (promote value) source
  return shifted &&& promote 1#w

/-- `static_cast<T>(((value >> source) & T{1}) << destination)`. -/
def moveBit (value : BitVec w) (source destination : ℕ) : Option (BitVec w) := do
  let bit ← bitAt value source
  let moved ← shiftLeftBits bit destination
  return moved.setWidth w

/-- `bit_reverse_scalar`. -/
def bitReverseScalar (value : BitVec w) : Option (BitVec w) :=
  tryUp w (fun source result => do
    let moved ← moveBit value source (w - source - 1)
    return result ||| moved) 0

/-- `bit_repeat_scalar`. A failed assertion has no value; without assertions the lane is zero. -/
def bitRepeatScalar (ndebug : Bool) (value : BitVec w) (length : ℤ) : Option (BitVec w) :=
  if length ≤ 0 then if ndebug then some 0 else none
  else
    let patternLength := (unsignedInt.convert length).toNat
    tryUp w (fun destination result => do
      let source := destination % patternLength
      let moved ← moveBit value source destination
      return result ||| moved) 0

/-- `bit_compress_scalar`. -/
def bitCompressScalar (value mask : BitVec w) : Option (BitVec w) :=
  (cursorUp w (fun source => (bitAt mask source).map fun bit => bit != 0)
    (fun source destination result => do
      let moved ← moveBit value source destination
      return result ||| moved) 0).map Prod.fst

/-- `bit_expand_scalar`. -/
def bitExpandScalar (value mask : BitVec w) : Option (BitVec w) :=
  (cursorUp w (fun destination => (bitAt mask destination).map fun bit => bit != 0)
    (fun destination source result => do
      let moved ← moveBit value source destination
      return result ||| moved) 0).map Prod.fst

def bitReverse (value : Vec (BitVec w) n) : Option (Vec (BitVec w) n) :=
  tryUp n (fun i result => (do
    let v ← lane value i
    bitReverseScalar v).bind (setLane result i)) default

/-- `bit_repeat` with a vector of lengths of type `L`. -/
def bitRepeat (ndebug : Bool) (value : Vec (BitVec w) n) (length : Vec ℤ n) : Option (Vec (BitVec w) n) :=
  tryUp n (fun i result => (do
    let v ← lane value i
    let l ← lane length i
    bitRepeatScalar ndebug v (IndexType.int.convert l)).bind (setLane result i)) default

/-- `bit_repeat` with one length. -/
def bitRepeatInt (ndebug : Bool) (value : Vec (BitVec w) n) (length : ℤ) : Option (Vec (BitVec w) n) :=
  tryUp n (fun i result => (do
    let v ← lane value i
    bitRepeatScalar ndebug v length).bind (setLane result i)) default

/-- `bit_compress` with a vector of masks. -/
def bitCompress (value mask : Vec (BitVec w) n) : Option (Vec (BitVec w) n) :=
  tryUp n (fun i result => (do
    let v ← lane value i
    let m ← lane mask i
    bitCompressScalar v m).bind (setLane result i)) default

/-- `bit_compress` with one mask. -/
def bitCompressMask (value : Vec (BitVec w) n) (mask : BitVec w) : Option (Vec (BitVec w) n) :=
  tryUp n (fun i result => (do
    let v ← lane value i
    bitCompressScalar v mask).bind (setLane result i)) default

/-- `bit_expand` with a vector of masks. -/
def bitExpand (value mask : Vec (BitVec w) n) : Option (Vec (BitVec w) n) :=
  tryUp n (fun i result => (do
    let v ← lane value i
    let m ← lane mask i
    bitExpandScalar v m).bind (setLane result i)) default

/-- `bit_expand` with one mask. -/
def bitExpandMask (value : Vec (BitVec w) n) (mask : BitVec w) : Option (Vec (BitVec w) n) :=
  tryUp n (fun i result => (do
    let v ← lane value i
    bitExpandScalar v mask).bind (setLane result i)) default

/-! ## The operators -/

theorem le_promotedWidth (w : ℕ) : w ≤ promotedWidth w := Nat.le_max_left w _

theorem getLsbD_promote (x : BitVec w) (i : ℕ) : (promote x).getLsbD i = x.getLsbD i := by
  have hle := le_promotedWidth w
  by_cases hi : i < promotedWidth w
  · simp [promote, hi]
  · rw [BitVec.getLsbD_of_ge _ _ (by omega), BitVec.getLsbD_of_ge _ _ (by omega)]

/-- A promoted narrow lane is not negative. -/
theorem msb_promote (x : BitVec w) (h : w < IndexType.int.width) : (promote x).msb = false := by
  have hlt : w ≤ promotedWidth w - 1 := by
    have hle : IndexType.int.width ≤ promotedWidth w := Nat.le_max_right w _
    omega
  rw [BitVec.msb_eq_getLsbD_last, getLsbD_promote]
  exact BitVec.getLsbD_of_ge x _ hlt

theorem bitAt_eq (value : BitVec w) {source : ℕ} (h : source < w) :
    bitAt value source = some (promote (if value.getLsbD source then 1#w else 0)) := by
  have hlt : source < promotedWidth w := lt_of_lt_of_le h (le_promotedWidth w)
  have hshift : shiftRightBits w (promote value) source = some (promote value >>> source) := by
    rw [shiftRightBits, if_pos hlt]
    split
    · rename_i hnarrow
      rw [BitVec.sshiftRight_eq_of_msb_false (msb_promote value hnarrow)]
    · rfl
  simp only [bitAt, hshift, Option.bind_eq_bind, Option.bind_some, Option.pure_def]
  congr 1
  apply BitVec.eq_of_getLsbD_eq
  intro i hi
  rw [BitVec.getLsbD_and, BitVec.getLsbD_ushiftRight, getLsbD_promote, getLsbD_promote, getLsbD_promote]
  by_cases h0 : i = 0
  · subst h0
    cases value.getLsbD source <;> simp
  · cases hbit : value.getLsbD source <;> simp [BitVec.getLsbD_one, h0]

theorem moveBit_eq (value : BitVec w) {source destination : ℕ} (hs : source < w) (hd : destination < w) :
    moveBit value source destination =
      some (if value.getLsbD source then BitVec.twoPow w destination else 0) := by
  have hlt : destination < promotedWidth w := lt_of_lt_of_le hd (le_promotedWidth w)
  simp only [moveBit, bitAt_eq value hs, shiftLeftBits, if_pos hlt, Option.bind_eq_bind, Option.bind_some,
    Option.pure_def]
  congr 1
  apply BitVec.eq_of_getLsbD_eq
  intro i hi
  have hle := le_promotedWidth w
  rw [BitVec.getLsbD_setWidth, BitVec.getLsbD_shiftLeft, getLsbD_promote]
  cases hbit : value.getLsbD source with
  | false => simp
  | true =>
    simp only [if_true, BitVec.getLsbD_one, BitVec.getLsbD_twoPow]
    by_cases he : i = destination
    · subst he
      simp [hi, show i < promotedWidth w by omega, show 0 < w by omega]
    · by_cases hbelow : i < destination
      · simp [hbelow, show ¬destination = i by omega]
      · simp [show i - destination ≠ 0 by omega, show ¬destination = i by omega]

/-- The bits after one more bit was moved. -/
theorem getLsbD_moved (result value : BitVec w) {source destination : ℕ} (hd : destination < w) (i : ℕ) :
    (result ||| if value.getLsbD source then BitVec.twoPow w destination else 0).getLsbD i =
      (result.getLsbD i || (decide (i = destination) && value.getLsbD source)) := by
  rw [BitVec.getLsbD_or]
  cases hbit : value.getLsbD source with
  | false => simp
  | true =>
    simp only [if_true, BitVec.getLsbD_twoPow, Bool.and_true]
    by_cases he : i = destination
    · simp [he, hd]
    · simp [he, show ¬destination = i from fun h => he h.symm]

/-- A bit of the mask as a condition. -/
theorem selected_eq (mask : BitVec w) {i : ℕ} (h : i < w) :
    ((bitAt mask i).map fun bit => bit != 0) = some (mask.getLsbD i) := by
  rw [bitAt_eq mask h, Option.map_some]
  congr 1
  have hle := le_promotedWidth w
  cases hbit : mask.getLsbD i with
  | false => simp [promote]
  | true =>
    have hone : (promote 1#w) ≠ 0 := by
      intro he
      have hlsb := congrArg (fun x => x.getLsbD 0) he
      simp [getLsbD_promote, show 0 < w by omega] at hlsb
    simpa using hone

end CCForge.BasicVec
