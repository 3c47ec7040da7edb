import Mathlib.Data.List.Nodup
import Mathlib.Logic.Function.Basic

/-!
# Changing one value, appending one value

A step of a system changes the state of one party, or appends one party to a log.
-/

namespace CCForge

section Update

variable {ι β : Type*} [DecidableEq ι] {f : ι → β} {i : ι} {x : β}

/-- What is said of every value is kept when one of them changes. -/
theorem forall_update {P : ι → β → Prop} (h : ∀ j, j ≠ i → P j (f j)) (hx : P i x) (j : ι) :
    P j (Function.update f i x j) :=
  (Function.forall_update_iff f P).2 ⟨hx, h⟩ j

theorem update_self_of_eq (h : f i = x) : Function.update f i x = f := by
  rw [← h, Function.update_eq_self]

end Update

section Append

variable {α : Type*} {l : List α} {a b : α}

theorem mem_append_of_ne (h : a ≠ b) : a ∈ l ++ [b] ↔ a ∈ l := by
  simp [h]

theorem nodup_snoc (h : l.Nodup) (ha : a ∉ l) : (l ++ [a]).Nodup := by
  rw [← List.concat_eq_append]
  exact h.concat ha

end Append

end CCForge
