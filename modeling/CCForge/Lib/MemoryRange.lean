import Mathlib.Data.Nat.Notation
import Mathlib.Data.List.Basic
import Mathlib.Data.List.Range

/-!
# Ranges of a memory

A memory says what each address holds. What is read from a range depends on the addresses in it alone,
and a range can be read in two parts.
-/

namespace CCForge

/-- `size` addresses from `data` on. -/
structure Range where
  data : ℕ := 0
  size : ℕ := 0
  deriving DecidableEq, Repr

namespace Range

variable {Byte : Type*} {m m' : ℕ → Byte} {r q : Range} {a d e k n : ℕ}

def Mem (r : Range) (a : ℕ) : Prop := r.data ≤ a ∧ a < r.data + r.size

/-- No address is in both. -/
def Disjoint (r q : Range) : Prop := ∀ a, r.Mem a → ¬q.Mem a

/-- `r` is a part of `q`. -/
def Inside (r q : Range) : Prop := q.data ≤ r.data ∧ r.data + r.size ≤ q.data + q.size

instance : Decidable (r.Mem a) := inferInstanceAs (Decidable (_ ∧ _))

instance : Decidable (r.Inside q) := inferInstanceAs (Decidable (_ ∧ _))

theorem Inside.mem (h : r.Inside q) (ha : r.Mem a) : q.Mem a :=
  ⟨Nat.le_trans h.1 ha.1, Nat.lt_of_lt_of_le ha.2 h.2⟩

theorem Disjoint.symm (h : r.Disjoint q) : q.Disjoint r := fun a hq hr => h a hr hq

/-- Two ranges are apart if one is empty or ends before the other begins. -/
theorem disjoint_iff :
    r.Disjoint q ↔
      r.size = 0 ∨ q.size = 0 ∨ r.data + r.size ≤ q.data ∨ q.data + q.size ≤ r.data := by
  constructor
  · intro h
    -- the larger of the two first addresses is in both ranges, if any is
    have hr := h r.data
    have hq := h q.data
    unfold Mem at hr hq
    omega
  · intro h a hr hq
    unfold Mem at hr hq
    omega

instance : Decidable (r.Disjoint q) := decidable_of_iff' _ disjoint_iff

/-- What a memory holds in a range. -/
def read (m : ℕ → Byte) (r : Range) : List Byte := (List.range' r.data r.size).map m

@[simp] theorem length_read (m : ℕ → Byte) (r : Range) : (read m r).length = r.size := by
  rw [read, List.length_map, List.length_range']

theorem read_congr (h : ∀ a, r.Mem a → m' a = m a) : read m' r = read m r :=
  List.map_congr_left fun a ha => h a (List.mem_range'_1.mp ha)

/-- One range holds what another one held. -/
theorem read_shift (h : ∀ i < n, m' (d + i) = m (e + i)) : read m' ⟨d, n⟩ = read m ⟨e, n⟩ := by
  simp only [read, List.range'_eq_map_range, List.map_map]
  exact List.map_congr_left fun i hi => h i (List.mem_range.mp hi)

theorem read_append (m : ℕ → Byte) (d k n : ℕ) :
    read m ⟨d, k + n⟩ = read m ⟨d, k⟩ ++ read m ⟨d + k, n⟩ := by
  simp only [read]
  rw [← List.map_append, List.range'_append_1]

theorem take_read (m : ℕ → Byte) (h : k ≤ r.size) : (read m r).take k = read m ⟨r.data, k⟩ := by
  rw [read, ← List.map_take, List.take_range'_of_length_ge h]
  rfl

end Range

end CCForge
