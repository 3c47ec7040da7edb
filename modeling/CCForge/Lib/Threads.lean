import Mathlib.Data.List.Basic
import Mathlib.Logic.Function.Basic

/-!
# Call stacks of threads

The code of a component runs on several threads, each with a stack of frames,
innermost first. A step changes the stack of one thread. The facts a component
needs about all stacks together are that a frame of some kind exists at most once,
that a frame of some kind exists at all, and how many threads are in some state.
-/

namespace CCForge

variable {τ φ : Type*} [DecidableEq τ]

/-- The frames that the owner `o` accounts for on thread `t`. -/
def ownedBy (o : Option (τ × φ)) (t : τ) : List φ :=
  match o with
  | some (u, f) => if t = u then [f] else []
  | none => []

@[simp] theorem ownedBy_none (t : τ) : ownedBy (none : Option (τ × φ)) t = [] := rfl

@[simp] theorem ownedBy_self (t : τ) (f : φ) : ownedBy (some (t, f)) t = [f] := by
  simp [ownedBy]

theorem ownedBy_other {t u : τ} (h : t ≠ u) (f : φ) : ownedBy (some (u, f)) t = [] := by
  simp [ownedBy, h]

/-- Over all threads, the frames with `p` are exactly the one that `o` names. -/
def Sole (p : φ → Bool) (stack : τ → List φ) (o : Option (τ × φ)) : Prop :=
  ∀ t, (stack t).filter p = ownedBy o t

namespace Sole

variable {p : φ → Bool} {stack : τ → List φ} {o : Option (τ × φ)} {t : τ} {f : φ}
  {new rest : List φ}

/-- The frame on top of a stack is the owner when it has `p`. -/
theorem of_top (h : Sole p stack o) (ht : stack t = f :: rest) (hf : p f = true) :
    o = some (t, f) ∧ rest.filter p = [] := by
  have hs := h t
  rw [ht, List.filter_cons_of_pos hf] at hs
  cases o with
  | none => simp at hs
  | some uf =>
    obtain ⟨u, g⟩ := uf
    by_cases hu : t = u
    · subst hu
      simp only [ownedBy_self, List.cons.injEq] at hs
      exact ⟨by rw [hs.1], hs.2⟩
    · simp [ownedBy_other hu] at hs

/-- A frame with `p` anywhere on a stack is the owner. -/
theorem of_mem (h : Sole p stack o) (hm : f ∈ stack t) (hf : p f = true) : o = some (t, f) := by
  have hfilter := List.mem_filter.mpr ⟨hm, hf⟩
  rw [h t] at hfilter
  cases o with
  | none => simp at hfilter
  | some ug =>
    obtain ⟨u, g⟩ := ug
    by_cases hu : t = u
    · subst hu
      simp only [ownedBy_self, List.mem_singleton] at hfilter
      rw [hfilter]
    · simp [ownedBy_other hu] at hfilter

/-- A step of thread `t` that keeps its frames with `p` keeps the owner. -/
theorem keep (h : Sole p stack o) (hn : new.filter p = (stack t).filter p) :
    Sole p (Function.update stack t new) o := by
  intro u
  by_cases hu : u = t
  · subst hu
    simp only [Function.update_self]
    exact hn.trans (h u)
  · simp only [Function.update_of_ne hu]
    exact h u

/-- Thread `t` becomes the owner, or stays it with another frame. -/
theorem own (h : Sole p stack o) (ho : ∀ u, u ≠ t → ownedBy o u = [])
    (hn : new.filter p = [f]) : Sole p (Function.update stack t new) (some (t, f)) := by
  intro u
  by_cases hu : u = t
  · subst hu
    simp only [Function.update_self, ownedBy_self]
    exact hn
  · simp only [Function.update_of_ne hu, ownedBy_other hu]
    rw [h u, ho u hu]

theorem disown (h : Sole p stack o) (ho : ∀ u, u ≠ t → ownedBy o u = [])
    (hn : new.filter p = []) : Sole p (Function.update stack t new) none := by
  intro u
  by_cases hu : u = t
  · subst hu
    simp only [Function.update_self, ownedBy_none]
    exact hn
  · simp only [Function.update_of_ne hu, ownedBy_none]
    rw [h u, ho u hu]

end Sole

/-- Some thread has a frame with `p`. -/
def Somewhere (p : φ → Bool) (stack : τ → List φ) : Prop :=
  ∃ t, ∃ f ∈ stack t, p f = true

namespace Somewhere

variable {p : φ → Bool} {stack : τ → List φ} {t : τ} {new : List φ}

theorem here {f : φ} (hm : f ∈ new) (hf : p f = true) :
    Somewhere p (Function.update stack t new) :=
  ⟨t, f, by simpa using hm, hf⟩

/-- A step of thread `t` after which `t` still has such a frame if it had one. -/
theorem keep (h : Somewhere p stack)
    (hn : (∃ f ∈ stack t, p f = true) → ∃ f ∈ new, p f = true) :
    Somewhere p (Function.update stack t new) := by
  obtain ⟨u, f, hm, hf⟩ := h
  by_cases hu : u = t
  · subst hu
    obtain ⟨g, hg, hpg⟩ := hn ⟨f, hm, hf⟩
    exact here hg hpg
  · refine ⟨u, f, ?_, hf⟩
    rw [Function.update_of_ne hu]
    exact hm

end Somewhere

/-- The threads whose state has `p` are `n`. -/
def Counted (p : φ → Bool) (f : τ → φ) (n : ℕ) : Prop :=
  ∃ l : List τ, l.Nodup ∧ l.length = n ∧ ∀ t, t ∈ l ↔ p (f t) = true

namespace Counted

variable {p : φ → Bool} {f : τ → φ} {n : ℕ} {t : τ} {x : φ}

omit [DecidableEq τ] in
theorem zero (h : ∀ t, p (f t) = false) : Counted p f 0 :=
  ⟨[], List.nodup_nil, rfl, fun t => by simp [h t]⟩

omit [DecidableEq τ] in
theorem pos (h : Counted p f n) (hf : p (f t) = true) : 0 < n := by
  obtain ⟨l, -, rfl, hl⟩ := h
  exact List.length_pos_of_mem ((hl t).mpr hf)

omit [DecidableEq τ] in
theorem of_zero (h : Counted p f 0) (t : τ) : p (f t) = false := by
  by_contra hf
  exact absurd (h.pos (by simpa using hf)) (Nat.lt_irrefl 0)

omit [DecidableEq τ] in
theorem eq_zero (h : Counted p f n) (hf : ∀ t, p (f t) = false) : n = 0 := by
  obtain ⟨l, -, rfl, hl⟩ := h
  refine List.length_eq_zero_iff.mpr (List.eq_nil_iff_forall_not_mem.mpr fun t ht => ?_)
  have := (hl t).mp ht
  rw [hf t] at this
  cases this

theorem keep (h : Counted p f n) (hx : p x = p (f t)) :
    Counted p (Function.update f t x) n := by
  obtain ⟨l, hn, hlen, hl⟩ := h
  refine ⟨l, hn, hlen, fun u => ?_⟩
  by_cases hu : u = t
  · subst hu
    rw [Function.update_self, hx]
    exact hl u
  · rw [Function.update_of_ne hu]
    exact hl u

theorem enter (h : Counted p f n) (hf : p (f t) = false) (hx : p x = true) :
    Counted p (Function.update f t x) (n + 1) := by
  obtain ⟨l, hn, rfl, hl⟩ := h
  have ht : t ∉ l := by simp [hl t, hf]
  refine ⟨t :: l, List.nodup_cons.mpr ⟨ht, hn⟩, rfl, fun u => ?_⟩
  by_cases hu : u = t
  · subst hu
    simp [hx]
  · simp [hu, hl u]

theorem leave (h : Counted p f n) (hf : p (f t) = true) (hx : p x = false) :
    Counted p (Function.update f t x) (n - 1) := by
  obtain ⟨l, hn, rfl, hl⟩ := h
  refine ⟨l.erase t, hn.erase t, List.length_erase_of_mem ((hl t).mpr hf), fun u => ?_⟩
  rw [hn.mem_erase_iff, hl u]
  by_cases hu : u = t
  · subst hu
    simp [hx]
  · simp [hu]

end Counted

end CCForge
