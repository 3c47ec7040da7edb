import Mathlib.Algebra.BigOperators.Group.List.Basic
import Mathlib.Algebra.Order.Ring.Nat

/-!
# Strided index arithmetic

A multi-index is a list of naturals, a box of extents bounds it from above, and a list of
strides maps it to one number.
-/

namespace CCForge.Strided

/-- The number at a multi-index for the given strides. -/
def dot : List ℕ → List ℕ → ℕ
  | i :: is, s :: ss => i * s + dot is ss
  | _, _ => 0

/-- Each stride is the product of `s` and the extents before it. -/
def columnStrides (s : ℕ) : List ℕ → List ℕ
  | [] => []
  | e :: es => s :: columnStrides (s * e) es

/-- The multi-index lies in the box. -/
def InBox (j e : List ℕ) : Prop := List.Forall₂ (· < ·) j e

/-- The greatest multi-index of a box that is not empty. -/
def last (e : List ℕ) : List ℕ := e.map (· - 1)

variable {a b c d e j s t : List ℕ}

@[simp] theorem dot_nil : dot [] s = 0 := by
  cases s <;> rfl

theorem dot_cons (x y : ℕ) : dot (x :: a) (y :: s) = x * y + dot a s := rfl

theorem columnStrides_cons (s x : ℕ) :
    columnStrides s (x :: e) = s :: columnStrides (s * x) e := rfl

theorem dot_append (h : a.length = b.length) : dot (a ++ c) (b ++ d) = dot a b + dot c d := by
  induction a generalizing b with
  | nil =>
    cases b with
    | nil => simp
    | cons x b => cases h
  | cons x a ih =>
    cases b with
    | nil => cases h
    | cons y b =>
      simp only [List.cons_append, dot_cons, ih (Nat.succ.inj h)]
      exact (Nat.add_assoc _ _ _).symm

theorem dot_reverse (h : a.length = b.length) : dot a.reverse b.reverse = dot a b := by
  induction a generalizing b with
  | nil => simp
  | cons x a ih =>
    cases b with
    | nil => cases h
    | cons y b =>
      have hl : a.length = b.length := Nat.succ.inj h
      rw [List.reverse_cons, List.reverse_cons, dot_append (by simpa using hl), ih hl]
      rw [dot_cons, dot_nil, Nat.add_zero]
      exact Nat.add_comm _ _

theorem dot_le (h : List.Forall₂ (· ≤ ·) a b) : dot a s ≤ dot b s := by
  induction h generalizing s with
  | nil => exact le_rfl
  | cons hx _ ih =>
    cases s with
    | nil => exact le_rfl
    | cons y s => exact Nat.add_le_add (Nat.mul_le_mul_right y hx) ih

/-- Where the box has only one index in each direction, the strides do not matter. -/
theorem dot_eq_zero (h : InBox j e) (he : ∀ x ∈ e, x ≤ 1) : dot j s = 0 := by
  induction h generalizing s with
  | nil => simp
  | @cons x y j e hx _ ih =>
    cases s with
    | nil => rfl
    | cons z s =>
      have hy := he y List.mem_cons_self
      have hx0 : x = 0 := by omega
      rw [dot_cons, hx0, ih (fun w hw => he w (List.mem_cons_of_mem y hw)), Nat.zero_mul]

theorem InBox.length_eq (h : InBox j e) : j.length = e.length := List.Forall₂.length_eq h

theorem InBox.zero_notMem (h : InBox j e) : 0 ∉ e := by
  induction h with
  | nil => simp
  | @cons x y j e hx _ ih =>
    rw [List.mem_cons, not_or]
    exact ⟨by omega, ih⟩

theorem InBox.le_last (h : InBox j e) : List.Forall₂ (· ≤ ·) j (last e) := by
  induction h with
  | nil => exact .nil
  | cons hx _ ih => exact .cons (Nat.le_sub_one_of_lt hx) ih

theorem inBox_last (h : 0 ∉ e) : InBox (last e) e := by
  induction e with
  | nil => exact .nil
  | cons x e ih =>
    rw [List.mem_cons, not_or] at h
    exact .cons (Nat.sub_one_lt (Ne.symm h.1)) (ih h.2)

theorem InBox.dot_le_last (h : InBox j e) : dot j s ≤ dot (last e) s := dot_le h.le_last

theorem InBox.reverse (h : InBox j e) : InBox j.reverse e.reverse := List.rel_reverse h

@[simp] theorem last_reverse : last e.reverse = (last e).reverse := List.map_reverse

@[simp] theorem length_last : (last e).length = e.length := List.length_map _

@[simp] theorem length_columnStrides (s : ℕ) : (columnStrides s e).length = e.length := by
  induction e generalizing s with
  | nil => rfl
  | cons x e ih => simp [columnStrides_cons, ih]

theorem columnStrides_append (s : ℕ) :
    columnStrides s (a ++ b) = columnStrides s a ++ columnStrides (s * a.prod) b := by
  induction a generalizing s with
  | nil => simp only [List.nil_append, List.prod_nil, Nat.mul_one]; rfl
  | cons x a ih => simp [columnStrides_cons, ih, Nat.mul_assoc]

/-- The strides by position. -/
theorem columnStrides_eq_map (s : ℕ) :
    columnStrides s e = (List.range e.length).map fun k => s * (e.take k).prod := by
  induction e generalizing s with
  | nil => rfl
  | cons x e ih =>
    rw [columnStrides_cons, List.length_cons, List.range_succ_eq_map, List.map_cons, List.map_map, ih]
    simp only [List.take_zero, List.prod_nil, Nat.mul_one, List.cons.injEq, true_and]
    refine List.map_congr_left fun k _ => ?_
    simp [Nat.mul_assoc]

/-- The box ends one stride after its last index. -/
theorem dot_last_columnStrides (s : ℕ) (h : 0 ∉ e) :
    dot (last e) (columnStrides s e) + s = s * e.prod := by
  induction e generalizing s with
  | nil => simp [last]
  | cons x e ih =>
    rw [List.mem_cons, not_or] at h
    obtain ⟨y, rfl⟩ : ∃ y, x = y + 1 := ⟨x - 1, by omega⟩
    have hrest := ih (s * (y + 1)) h.2
    rw [columnStrides_cons, last, List.map_cons, dot_cons, List.prod_cons, Nat.add_sub_cancel]
    rw [last] at hrest
    rw [← Nat.mul_assoc, ← hrest, Nat.mul_add, Nat.mul_comm s y]
    omega

theorem prod_pos (h : 0 ∉ e) : 0 < e.prod := by
  induction e with
  | nil => simp
  | cons x e ih =>
    rw [List.mem_cons, not_or] at h
    rw [List.prod_cons]
    exact Nat.mul_pos (Nat.pos_of_ne_zero (Ne.symm h.1)) (ih h.2)

theorem prod_eq_zero (h : 0 ∈ e) : e.prod = 0 := by
  induction e with
  | nil => cases h
  | cons x e ih =>
    rw [List.prod_cons]
    obtain rfl | h := List.mem_cons.mp h
    · exact Nat.zero_mul _
    · rw [ih h, Nat.mul_zero]

/-! ## Injectivity -/

theorem dot_map_mul (s : ℕ) (a b : List ℕ) : dot a (b.map (s * ·)) = s * dot a b := by
  induction a generalizing b with
  | nil => simp
  | cons x a ih =>
    cases b with
    | nil => rfl
    | cons y b =>
      rw [List.map_cons, dot_cons, dot_cons, ih, Nat.mul_add]
      congr 1
      exact Nat.mul_left_comm x s y

theorem columnStrides_mul (s t : ℕ) : columnStrides (s * t) e = (columnStrides t e).map (s * ·) := by
  induction e generalizing t with
  | nil => rfl
  | cons x e ih => rw [columnStrides_cons, columnStrides_cons, List.map_cons, ← ih, Nat.mul_assoc]

/-- A number below `s` and a multiple of `s` can be told from their sum. -/
theorem digit_injective {s x y X Y : ℕ} (hx : x < s) (hy : y < s) (h : x + s * X = y + s * Y) :
    x = y ∧ X = Y := by
  have hmod := congrArg (· % s) h
  simp only [Nat.add_mul_mod_self_left, Nat.mod_eq_of_lt hx, Nat.mod_eq_of_lt hy] at hmod
  subst hmod
  exact ⟨rfl, Nat.eq_of_mul_eq_mul_left (by omega) (Nat.add_left_cancel h)⟩

theorem dot_columnStrides_injective {s : ℕ} (hs : 0 < s) (ha : InBox a e) (hb : InBox b e)
    (h : dot a (columnStrides s e) = dot b (columnStrides s e)) : a = b := by
  induction ha generalizing b s with
  | nil =>
    cases hb
    rfl
  | @cons x k a e hx _ ih =>
    cases hb with
    | @cons y _ b _ hy hb =>
      have hrest : columnStrides (s * k) e = (columnStrides k e).map (s * ·) := columnStrides_mul s k
      have hunit : columnStrides k e = (columnStrides 1 e).map (k * ·) := by
        rw [← columnStrides_mul, Nat.mul_one]
      rw [columnStrides_cons, dot_cons, dot_cons, hrest, dot_map_mul, dot_map_mul,
        Nat.mul_comm x, Nat.mul_comm y, ← Nat.mul_add, ← Nat.mul_add] at h
      have hdigits := Nat.eq_of_mul_eq_mul_left hs h
      rw [hunit, dot_map_mul, dot_map_mul] at hdigits
      obtain ⟨rfl, htail⟩ := digit_injective hx hy hdigits
      rw [ih Nat.one_pos hb htail]

/-- A first stride of one may be followed by any stride that is not less than the extent. -/
theorem dot_padded_injective {s x : ℕ} (hxs : x ≤ s) (ha : InBox a (x :: e)) (hb : InBox b (x :: e))
    (h : dot a (1 :: columnStrides s e) = dot b (1 :: columnStrides s e)) : a = b := by
  cases ha with
  | @cons y _ a _ hy ha =>
    cases hb with
    | @cons z _ b _ hz hb =>
      have hunit : columnStrides s e = (columnStrides 1 e).map (s * ·) := by
        rw [← columnStrides_mul, Nat.mul_one]
      rw [dot_cons, dot_cons, Nat.mul_one, Nat.mul_one, hunit, dot_map_mul, dot_map_mul] at h
      obtain ⟨rfl, htail⟩ := digit_injective (hy.trans_le hxs) (hz.trans_le hxs) h
      rw [dot_columnStrides_injective Nat.one_pos ha hb htail]

end CCForge.Strided
