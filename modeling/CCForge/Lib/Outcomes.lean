import Mathlib.Data.List.Basic
import Mathlib.Order.Lattice.Nat

/-!
# Outcomes with step counts

What an execution that makes choices can end with: a finite list of possibilities,
each with the number of steps it takes, and `none` for an execution that is stuck.
Sequencing adds the counts, and the largest count bounds every way the execution can
go.
-/

namespace CCForge

variable {β γ δ : Type*}

abbrev Outcomes (β : Type*) := List (ℕ × Option β)

namespace Outcomes

def pure (x : β) : Outcomes β := [(0, some x)]

def stuck : Outcomes β := [(0, none)]

/-- One more step before the rest. -/
def tick (m : Outcomes β) : Outcomes β := m.map fun p => (p.1 + 1, p.2)

def delay (n : ℕ) (m : Outcomes β) : Outcomes β := m.map fun p => (n + p.1, p.2)

def bind (m : Outcomes β) (f : β → Outcomes γ) : Outcomes γ :=
  m.flatMap fun p => delay p.1 (p.2.elim stuck f)

/-- The largest number of steps. -/
def bound : Outcomes β → ℕ
  | [] => 0
  | p :: m => max p.1 (bound m)

theorem mem_tick {m : Outcomes β} {n : ℕ} {x : Option β} :
    (n, x) ∈ tick m ↔ ∃ k, n = k + 1 ∧ (k, x) ∈ m := by
  constructor
  · intro h
    obtain ⟨⟨k, y⟩, hk, he⟩ := List.mem_map.mp h
    cases he
    exact ⟨k, rfl, hk⟩
  · rintro ⟨k, rfl, hk⟩
    exact List.mem_map.mpr ⟨(k, x), hk, rfl⟩

theorem mem_delay {m : Outcomes β} {i n : ℕ} {x : Option β} :
    (n, x) ∈ delay i m ↔ ∃ k, n = i + k ∧ (k, x) ∈ m := by
  constructor
  · intro h
    obtain ⟨⟨k, y⟩, hk, he⟩ := List.mem_map.mp h
    cases he
    exact ⟨k, rfl, hk⟩
  · rintro ⟨k, rfl, hk⟩
    exact List.mem_map.mpr ⟨(k, x), hk, rfl⟩

theorem mem_bind {m : Outcomes β} {f : β → Outcomes γ} {n : ℕ} {y : Option γ} :
    (n, y) ∈ bind m f ↔
      ∃ j k, n = j + k ∧ ∃ x, (j, x) ∈ m ∧ (k, y) ∈ x.elim stuck f := by
  simp only [bind, List.mem_flatMap, mem_delay, Prod.exists]
  constructor
  · rintro ⟨j, x, hx, k, rfl, hk⟩
    exact ⟨j, k, rfl, x, hx, hk⟩
  · rintro ⟨j, k, rfl, x, hx, hk⟩
    exact ⟨j, x, hx, k, rfl, hk⟩

theorem mem_bind_some {m : Outcomes β} {f : β → Outcomes γ} {n : ℕ} {y : γ} :
    (n, some y) ∈ bind m f ↔
      ∃ j k, n = j + k ∧ ∃ x, (j, some x) ∈ m ∧ (k, some y) ∈ f x := by
  rw [mem_bind]
  constructor
  · rintro ⟨j, k, rfl, x, hx, hk⟩
    cases x with
    | none => simp [stuck] at hk
    | some x => exact ⟨j, k, rfl, x, hx, hk⟩
  · rintro ⟨j, k, rfl, x, hx, hk⟩
    exact ⟨j, k, rfl, some x, hx, hk⟩

@[simp] theorem tick_append (m m' : Outcomes β) : tick (m ++ m') = tick m ++ tick m' :=
  List.map_append

@[simp] theorem tick_stuck_ne_nil : tick (stuck : Outcomes β) ≠ [] := by
  simp [tick, stuck]

@[simp] theorem delay_zero (m : Outcomes β) : delay 0 m = m := by
  simp [delay]

theorem delay_delay (i j : ℕ) (m : Outcomes β) : delay i (delay j m) = delay (i + j) m := by
  simp [delay, Nat.add_assoc]

theorem tick_eq_delay (m : Outcomes β) : tick m = delay 1 m := by
  simp [tick, delay, Nat.add_comm]

@[simp] theorem pure_bind (x : β) (f : β → Outcomes γ) : bind (pure x) f = f x := by
  simp [pure, bind]

@[simp] theorem stuck_bind (f : β → Outcomes γ) : bind stuck f = stuck := by
  simp [stuck, bind]

theorem delay_bind (i : ℕ) (m : Outcomes β) (f : β → Outcomes γ) :
    bind (delay i m) f = delay i (bind m f) := by
  simp only [bind, delay, List.flatMap_map, List.map_flatMap, List.map_map]
  congr 1
  funext p
  congr 1
  funext q
  simp [Nat.add_assoc]

@[simp] theorem tick_bind (m : Outcomes β) (f : β → Outcomes γ) :
    bind (tick m) f = tick (bind m f) := by
  simp only [tick_eq_delay, delay_bind]

@[simp] theorem append_bind (m m' : Outcomes β) (f : β → Outcomes γ) :
    bind (m ++ m') f = bind m f ++ bind m' f :=
  List.flatMap_append

theorem bind_assoc (m : Outcomes β) (f : β → Outcomes γ) (g : γ → Outcomes δ) :
    bind (bind m f) g = bind m fun x => bind (f x) g := by
  induction m with
  | nil => rfl
  | cons p m ih =>
    have hp : bind (delay p.1 (p.2.elim stuck f)) g
        = delay p.1 (p.2.elim stuck fun x => bind (f x) g) := by
      rw [delay_bind]
      cases p.2 <;> simp
    calc bind (bind (p :: m) f) g
        = bind (delay p.1 (p.2.elim stuck f)) g ++ bind (bind m f) g := by
          simp only [bind, List.flatMap_cons, List.flatMap_append]
      _ = bind (p :: m) fun x => bind (f x) g := by
          rw [hp, ih]
          simp only [bind, List.flatMap_cons]

theorem tick_ne_nil {m : Outcomes β} (h : m ≠ []) : tick m ≠ [] := by
  simpa [tick] using h

theorem bind_ne_nil {m : Outcomes β} {f : β → Outcomes γ} (hm : m ≠ []) (hf : ∀ x, f x ≠ []) :
    bind m f ≠ [] := by
  obtain ⟨⟨j, x⟩, hj⟩ := List.exists_mem_of_ne_nil m hm
  have hx : x.elim stuck f ≠ [] := by
    cases x with
    | none => simp [stuck]
    | some x => exact hf x
  obtain ⟨⟨k, y⟩, hk⟩ := List.exists_mem_of_ne_nil _ hx
  exact List.ne_nil_of_mem (mem_bind.mpr ⟨j, k, rfl, x, hj, hk⟩)

theorem le_bound {m : Outcomes β} {n : ℕ} {x : Option β} (h : (n, x) ∈ m) : n ≤ bound m := by
  induction m with
  | nil => cases h
  | cons p m ih =>
    rcases List.mem_cons.mp h with rfl | h
    · exact le_max_left _ _
    · exact (ih h).trans (le_max_right _ _)

theorem exists_mem_bound {m : Outcomes β} (h : m ≠ []) : ∃ x, (bound m, x) ∈ m := by
  induction m with
  | nil => exact absurd rfl h
  | cons p m ih =>
    by_cases hm : m = []
    · subst hm
      exact ⟨p.2, by simp [bound]⟩
    · obtain ⟨x, hx⟩ := ih hm
      rcases max_cases p.1 (bound m) with ⟨he, _⟩ | ⟨he, _⟩
      · exact ⟨p.2, by simp only [bound, he]; exact List.mem_cons_self⟩
      · exact ⟨x, by simp only [bound, he]; exact List.mem_cons_of_mem _ hx⟩

/-- A step that keeps to the outcomes of before makes the bound smaller. -/
theorem bound_lt {m m' : Outcomes β} (hm : m' ≠ []) (h : ∀ r ∈ tick m', r ∈ m) :
    bound m' < bound m := by
  obtain ⟨x, hx⟩ := exists_mem_bound hm
  exact Nat.lt_of_succ_le (le_bound (h _ (mem_tick.mpr ⟨_, rfl, hx⟩)))

/-- Some execution ends with `x`. -/
def Ends (m : Outcomes β) (x : β) : Prop := ∃ n, (n, some x) ∈ m

theorem ends_pure {x y : β} : Ends (pure x) y ↔ y = x := by
  simp [Ends, pure]

theorem ends_tick {m : Outcomes β} {x : β} : Ends (tick m) x ↔ Ends m x := by
  constructor
  · rintro ⟨n, hn⟩
    obtain ⟨k, _, hk⟩ := mem_tick.mp hn
    exact ⟨k, hk⟩
  · rintro ⟨n, hn⟩
    exact ⟨n + 1, mem_tick.mpr ⟨n, rfl, hn⟩⟩

theorem ends_append {m m' : Outcomes β} {x : β} : Ends (m ++ m') x ↔ Ends m x ∨ Ends m' x := by
  simp only [Ends, List.mem_append, exists_or]

theorem ends_bind {m : Outcomes β} {f : β → Outcomes γ} {y : γ} :
    Ends (bind m f) y ↔ ∃ x, Ends m x ∧ Ends (f x) y := by
  constructor
  · rintro ⟨n, hn⟩
    obtain ⟨j, k, _, x, hx, hk⟩ := mem_bind_some.mp hn
    exact ⟨x, ⟨j, hx⟩, k, hk⟩
  · rintro ⟨x, ⟨j, hx⟩, k, hk⟩
    exact ⟨j + k, mem_bind_some.mpr ⟨j, k, rfl, x, hx, hk⟩⟩

/-- No execution is stuck, and each result satisfies `P`. -/
def All (P : β → Prop) (m : Outcomes β) : Prop := ∀ n r, (n, r) ∈ m → ∃ x, r = some x ∧ P x

variable {P : β → Prop} {Q : γ → Prop}

theorem All.mono {P' : β → Prop} {m : Outcomes β} (h : All P m) (hp : ∀ x, P x → P' x) :
    All P' m := by
  intro n r hr
  obtain ⟨x, hx, hpx⟩ := h n r hr
  exact ⟨x, hx, hp x hpx⟩

theorem all_pure {x : β} : All P (pure x) ↔ P x := by
  constructor
  · intro h
    obtain ⟨y, hy, hp⟩ := h 0 (some x) (by simp [pure])
    cases hy
    exact hp
  · intro h n r hr
    cases List.mem_singleton.mp hr
    exact ⟨x, rfl, h⟩

theorem all_tick {m : Outcomes β} : All P (tick m) ↔ All P m := by
  constructor
  · exact fun h n r hr => h (n + 1) r (mem_tick.mpr ⟨n, rfl, hr⟩)
  · intro h n r hr
    obtain ⟨k, _, hk⟩ := mem_tick.mp hr
    exact h k r hk

theorem all_append {m m' : Outcomes β} : All P (m ++ m') ↔ All P m ∧ All P m' := by
  simp only [All, List.mem_append]
  exact ⟨fun h => ⟨fun n r hr => h n r (.inl hr), fun n r hr => h n r (.inr hr)⟩,
    fun h n r hr => hr.elim (h.1 n r) (h.2 n r)⟩

theorem All.bind {m : Outcomes β} {f : β → Outcomes γ} (h : All P m)
    (hf : ∀ x, P x → All Q (f x)) : All Q (bind m f) := by
  intro n r hr
  obtain ⟨j, k, _, x, hx, hk⟩ := mem_bind.mp hr
  obtain ⟨y, rfl, hy⟩ := h j x hx
  exact hf y hy k r hk

end Outcomes

end CCForge
