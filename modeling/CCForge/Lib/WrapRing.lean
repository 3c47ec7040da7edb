import Mathlib.Data.Nat.ModEq
import Mathlib.Tactic.Common

/-!
# Ring buffers with counters that wrap

The head and the tail of a ring count items and are never reduced to slots: they wrap at `2 ^ w`, and
the slot of a count is what a mask leaves of it. With `2 ^ k` slots and `k < w` the counters tell an
empty ring from a full one, and the items in it have different slots.
-/

namespace CCForge.WrapRing

variable {α : Type*} {w k i j : ℕ} {mask head tail : BitVec w} {read : ℕ → Option α} {items : List α}

/-- The slot of a count. -/
def slot (mask count : BitVec w) : ℕ := (count &&& mask).toNat

theorem add_ofNat_succ (count : BitVec w) (n : ℕ) :
    count + BitVec.ofNat w (n + 1) = count + BitVec.ofNat w n + 1 := by
  rw [BitVec.ofNat_add, ← BitVec.add_assoc]
  rfl

theorem add_ofNat_succ' (count : BitVec w) (n : ℕ) :
    count + BitVec.ofNat w (n + 1) = count + 1 + BitVec.ofNat w n := by
  rw [Nat.add_comm, BitVec.ofNat_add, ← BitVec.add_assoc]
  rfl

/-- A mask for `2 ^ k` slots. -/
def IsMask (mask : BitVec w) (k : ℕ) : Prop := k < w ∧ mask.toNat = 2 ^ k - 1

theorem slot_eq (h : IsMask mask k) (count : BitVec w) : slot mask count = count.toNat % 2 ^ k := by
  rw [slot, BitVec.toNat_and, h.2, Nat.and_two_pow_sub_one_eq_mod]

theorem slot_lt (h : IsMask mask k) (count : BitVec w) : slot mask count < 2 ^ k := by
  rw [slot_eq h]
  exact Nat.mod_lt _ (Nat.two_pow_pos k)

/-- The slots repeat only after `2 ^ k` counts, also where the counter wraps. -/
theorem slot_injective (h : IsMask mask k) (head : BitVec w) (hi : i < 2 ^ k) (hj : j < 2 ^ k)
    (heq : slot mask (head + BitVec.ofNat w i) = slot mask (head + BitVec.ofNat w j)) : i = j := by
  have hdvd : 2 ^ k ∣ 2 ^ w := Nat.pow_dvd_pow 2 h.1.le
  have hmod (i : ℕ) : (head + BitVec.ofNat w i).toNat % 2 ^ k = (head.toNat + i) % 2 ^ k := by
    rw [BitVec.toNat_add, BitVec.toNat_ofNat, Nat.add_mod_mod, Nat.mod_mod_of_dvd _ hdvd]
  rw [slot_eq h, slot_eq h, hmod, hmod] at heq
  have hcong : i ≡ j [MOD 2 ^ k] := Nat.ModEq.add_left_cancel' _ heq
  exact Nat.ModEq.eq_of_lt_of_lt hcong hi hj

/-- The slots from `head` to `tail` hold `items`. -/
structure Queue (mask : BitVec w) (k : ℕ) (read : ℕ → Option α) (head tail : BitVec w)
    (items : List α) : Prop where
  isMask : IsMask mask k
  length_le : items.length ≤ 2 ^ k
  tail_eq : tail = head + BitVec.ofNat w items.length
  cell : ∀ i x, items[i]? = some x → read (slot mask (head + BitVec.ofNat w i)) = some x

namespace Queue

theorem two_pow_lt (h : IsMask mask k) : 2 ^ k < 2 ^ w := Nat.pow_lt_pow_right (by decide) h.1

theorem length_eq (h : Queue mask k read head tail items) : (tail - head).toNat = items.length := by
  have hlt := two_pow_lt h.isMask
  have hle := h.length_le
  rw [h.tail_eq, BitVec.add_comm, BitVec.add_sub_cancel, BitVec.toNat_ofNat,
    Nat.mod_eq_of_lt (by omega)]

/-- The counters are equal only when the ring is empty. -/
theorem head_eq_tail_iff (h : Queue mask k read head tail items) : head = tail ↔ items = [] := by
  rw [← List.length_eq_zero_iff, ← h.length_eq]
  constructor
  · rintro rfl
    simp
  · intro h0
    have hsub : tail - head = 0 := BitVec.eq_of_toNat_eq h0
    have hback := BitVec.sub_add_cancel tail head
    simpa [hsub] using hback

/-- Appending writes the slot of the tail, where no item is. -/
theorem push {read' : ℕ → Option α} {x : α} (h : Queue mask k read head tail items)
    (hroom : items.length < 2 ^ k) (hx : read' (slot mask tail) = some x)
    (hother : ∀ s, s ≠ slot mask tail → read' s = read s) :
    Queue mask k read' head (tail + 1) (items ++ [x]) where
  isMask := h.isMask
  length_le := by
    rw [List.length_append, List.length_singleton]
    omega
  tail_eq := by
    rw [h.tail_eq, List.length_append, List.length_singleton, add_ofNat_succ]
  cell := by
    intro i y hy
    rcases Nat.lt_trichotomy i items.length with hlt | rfl | hgt
    · rw [List.getElem?_append_left hlt] at hy
      rw [hother _ fun heq => ?_]
      · exact h.cell i y hy
      · rw [h.tail_eq] at heq
        exact hlt.ne (slot_injective h.isMask head (by omega) hroom heq)
    · rw [List.getElem?_append_right le_rfl, Nat.sub_self] at hy
      rw [← h.tail_eq, hx]
      exact hy
    · rw [List.getElem?_eq_none (by simp; omega)] at hy
      cases hy

theorem front {x : α} {rest : List α} (h : Queue mask k read head tail (x :: rest)) :
    read (slot mask head) = some x := by
  have hcell := h.cell 0 x rfl
  rwa [BitVec.add_zero] at hcell

/-- Removing items from the front moves the head. -/
theorem drop {front rest : List α} (h : Queue mask k read head tail (front ++ rest)) :
    Queue mask k read (head + BitVec.ofNat w front.length) tail rest where
  isMask := h.isMask
  length_le := by
    have hle := h.length_le
    rw [List.length_append] at hle
    omega
  tail_eq := by
    rw [h.tail_eq, List.length_append, BitVec.ofNat_add, BitVec.add_assoc]
  cell := by
    intro i x hx
    rw [BitVec.add_assoc, ← BitVec.ofNat_add]
    apply h.cell
    rw [List.getElem?_append_right (Nat.le_add_right _ _), Nat.add_sub_cancel_left]
    exact hx

theorem pop {x : α} {rest : List α} (h : Queue mask k read head tail (x :: rest)) :
    Queue mask k read (head + 1) tail rest :=
  drop (show Queue mask k read head tail ([x] ++ rest) from h)

/-- Removing the last item moves the tail back, and its slot is the next one to be written. -/
theorem retract {x : α} {rest : List α} (h : Queue mask k read head tail (rest ++ [x])) :
    Queue mask k read head (tail - 1) rest ∧ read (slot mask (tail - 1)) = some x := by
  have htail : tail - 1 = head + BitVec.ofNat w rest.length := by
    rw [h.tail_eq, List.length_append, List.length_singleton, add_ofNat_succ]
    exact BitVec.add_sub_cancel _ _
  have hle := h.length_le
  rw [List.length_append, List.length_singleton] at hle
  refine ⟨⟨h.isMask, by omega, htail, fun i y hy => ?_⟩, ?_⟩
  · apply h.cell
    rw [List.getElem?_append_left (List.getElem?_eq_some_iff.mp hy).1]
    exact hy
  · rw [htail]
    apply h.cell
    rw [List.getElem?_append_right le_rfl, Nat.sub_self]
    rfl

end Queue

end CCForge.WrapRing
