import Mathlib.Control.Monad.Basic

/-!
# Programs that change a state and may throw

An exception does not undo the changes made before it. `Ends` is the weakest
precondition of a program for a postcondition of its normal end and one of its
exceptions; the lemmas compute it for every construct.
-/

namespace CCForge

/-- Programs with states in `σ` and exceptions in `ε`. -/
abbrev Effect (σ ε β : Type) := ExceptT ε (StateM σ) β

namespace Effect

variable {σ ε β γ : Type}

/-- From the state `s`, a normal end satisfies `Q` and an exception satisfies `E`. -/
def Ends (m : Effect σ ε β) (s : σ) (Q : β → σ → Prop) (E : ε → σ → Prop) : Prop :=
  match m.run.run s with
  | (.ok a, t) => Q a t
  | (.error e, t) => E e t

/-- How a program ends. -/
def outcome (m : Effect σ ε β) (s : σ) : Except ε β := (m.run.run s).1

/-- The state that a program leaves. -/
def after (m : Effect σ ε β) (s : σ) : σ := (m.run.run s).2

variable {s : σ} {Q Q' : β → σ → Prop} {E E' : ε → σ → Prop}

theorem Ends.mono {m : Effect σ ε β} (h : Ends m s Q E) (hQ : ∀ a t, Q a t → Q' a t)
    (hE : ∀ e t, E e t → E' e t) : Ends m s Q' E' := by
  unfold Ends at h ⊢
  split
  · next a t heq =>
    rw [heq] at h
    exact hQ a t h
  · next e t heq =>
    rw [heq] at h
    exact hE e t h

theorem Ends.and {m : Effect σ ε β} (h : Ends m s Q E) (h' : Ends m s Q' E') :
    Ends m s (fun a t => Q a t ∧ Q' a t) (fun e t => E e t ∧ E' e t) := by
  unfold Ends at h h' ⊢
  split
  · next a t heq =>
    rw [heq] at h h'
    exact ⟨h, h'⟩
  · next e t heq =>
    rw [heq] at h h'
    exact ⟨h, h'⟩

theorem ends_of_ok {m : Effect σ ε β} {a : β} (ho : outcome m s = .ok a) :
    Ends m s Q E ↔ Q a (after m s) := by
  unfold outcome at ho
  unfold Ends after
  split
  · next b t heq =>
    rw [heq] at ho ⊢
    cases ho
    exact Iff.rfl
  · next e t heq =>
    rw [heq] at ho
    exact absurd ho (by simp)

theorem ends_of_error {m : Effect σ ε β} {e : ε} (ho : outcome m s = .error e) :
    Ends m s Q E ↔ E e (after m s) := by
  unfold outcome at ho
  unfold Ends after
  split
  · next b t heq =>
    rw [heq] at ho
    exact absurd ho (by simp)
  · next e' t heq =>
    rw [heq] at ho ⊢
    cases ho
    exact Iff.rfl

theorem Ends.of_ok {m : Effect σ ε β} {a : β} (h : Ends m s Q E) (ho : outcome m s = .ok a) :
    Q a (after m s) := (ends_of_ok ho).mp h

theorem Ends.of_error {m : Effect σ ε β} {e : ε} (h : Ends m s Q E) (ho : outcome m s = .error e) :
    E e (after m s) := (ends_of_error ho).mp h

/-- A program that cannot return throws. -/
theorem Ends.throws {m : Effect σ ε β} (h : Ends m s (fun _ _ => False) E) :
    ∃ e, outcome m s = .error e ∧ E e (after m s) := by
  cases ho : outcome m s with
  | ok a => exact (h.of_ok ho).elim
  | error e => exact ⟨e, rfl, h.of_error ho⟩

theorem Ends.of_both {m : Effect σ ε β} {P : σ → Prop}
    (h : Ends m s (fun _ t => P t) fun _ t => P t) : P (after m s) := by
  cases ho : outcome m s with
  | ok a => exact h.of_ok ho
  | error e => exact h.of_error ho

@[simp] theorem ends_pure (a : β) : Ends (pure a : Effect σ ε β) s Q E ↔ Q a s := Iff.rfl

@[simp] theorem ends_throw (e : ε) : Ends (throw e : Effect σ ε β) s Q E ↔ E e s := Iff.rfl

@[simp] theorem ends_bind (m : Effect σ ε γ) (f : γ → Effect σ ε β) :
    Ends (m >>= f) s Q E ↔ Ends m s (fun a t => Ends (f a) t Q E) E := by
  simp only [Ends, ExceptT.run_bind, StateT.run_bind]
  cases h : m.run.run s with
  | mk r t => cases r <;> rfl

@[simp] theorem ends_get {P : σ → σ → Prop} : Ends (get : Effect σ ε σ) s P E ↔ P s s := Iff.rfl

@[simp] theorem ends_modify {P : PUnit → σ → Prop} (f : σ → σ) :
    Ends (modify f : Effect σ ε PUnit) s P E ↔ P ⟨⟩ (f s) := Iff.rfl

@[simp] theorem ends_tryCatch (m : Effect σ ε β) (f : ε → Effect σ ε β) :
    Ends (tryCatch m f) s Q E ↔ Ends m s Q (fun e t => Ends (f e) t Q E) := by
  unfold Ends ExceptT.run StateT.run
  simp only [MonadExcept.tryCatch, tryCatchThe, MonadExceptOf.tryCatch, ExceptT.tryCatch,
    ExceptT.mk, bind, StateT.bind]
  cases m s with
  | mk r t => cases r <;> rfl

end Effect

end CCForge
