import Mathlib.Data.List.Basic
import Mathlib.Logic.Function.Basic

/-!
# Finite runs of a transition function

A system is a partial step function on states: a label that is not enabled in a
state has no successor. A run executes a finite list of labels, and every
interleaving of the parties of a system is one such list.
-/

namespace CCForge

variable {σ : Type*} {α : Type*}

/-- Executes the labels in order, stopping at the first one that is not enabled. -/
def run (step : σ → α → Option σ) : σ → List α → Option σ
  | s, [] => some s
  | s, a :: as => (step s a).bind fun t => run step t as

/-- The states that some finite run reaches from an initial state. -/
def Reachable (step : σ → α → Option σ) (init : σ → Prop) (t : σ) : Prop :=
  ∃ s, init s ∧ ∃ as, run step s as = some t

variable {step : σ → α → Option σ}

theorem run_cons {s t : σ} {a : α} {as : List α} (h : run step s (a :: as) = some t) :
    ∃ u, step s a = some u ∧ run step u as = some t := by
  simpa [run, Option.bind_eq_some_iff] using h

theorem run_append (s : σ) (as bs : List α) :
    run step s (as ++ bs) = (run step s as).bind fun t => run step t bs := by
  induction as generalizing s with
  | nil => rfl
  | cons a as ih =>
    simp only [List.cons_append, run]
    cases step s a with
    | none => rfl
    | some u => exact ih u

/-- What every enabled step with a label in `Q` preserves, every run of such labels preserves. -/
theorem run_preserves_on {P : σ → Prop} {Q : α → Prop}
    (hstep : ∀ s a t, P s → Q a → step s a = some t → P t) {s t : σ} {as : List α} (hs : P s)
    (has : ∀ a ∈ as, Q a) (h : run step s as = some t) : P t := by
  induction as generalizing s with
  | nil =>
    cases h
    exact hs
  | cons a as ih =>
    obtain ⟨u, hu, ht⟩ := run_cons h
    exact ih (hstep s a u hs (has a List.mem_cons_self) hu)
      (fun b hb => has b (List.mem_cons_of_mem a hb)) ht

theorem run_preserves {P : σ → Prop} (hstep : ∀ s a t, P s → step s a = some t → P t)
    {s t : σ} {as : List α} (hs : P s) (h : run step s as = some t) : P t :=
  run_preserves_on (Q := fun _ => True) (fun s a t hp _ => hstep s a t hp) hs (fun _ _ => trivial) h

/-- Labels that each lower `μ` can only be executed `μ` times. -/
theorem run_length_le {P : σ → Prop} {Q : α → Prop} {μ : σ → ℕ}
    (hstep : ∀ s a t, P s → Q a → step s a = some t → P t ∧ μ t < μ s) {s t : σ} {as : List α}
    (hs : P s) (has : ∀ a ∈ as, Q a) (h : run step s as = some t) : as.length + μ t ≤ μ s := by
  induction as generalizing s with
  | nil =>
    cases h
    simp
  | cons a as ih =>
    obtain ⟨u, hu, ht⟩ := run_cons h
    obtain ⟨hpu, hlt⟩ := hstep s a u hs (has a List.mem_cons_self) hu
    have hle := ih hpu (fun b hb => has b (List.mem_cons_of_mem a hb)) ht
    rw [List.length_cons]
    omega

theorem Reachable.preserves {init P : σ → Prop} (hinit : ∀ s, init s → P s)
    (hstep : ∀ s a t, P s → step s a = some t → P t) {t : σ} (h : Reachable step init t) : P t := by
  obtain ⟨s, hs, as, ht⟩ := h
  exact run_preserves hstep (hinit s hs) ht

theorem Reachable.next {init : σ → Prop} {s t : σ} {a : α} (h : Reachable step init s)
    (ht : step s a = some t) : Reachable step init t := by
  obtain ⟨u, hu, as, hs⟩ := h
  refine ⟨u, hu, as ++ [a], ?_⟩
  simp [run_append, hs, run, ht]

end CCForge
