import Mathlib.Data.List.Nodup
import Mathlib.Logic.Function.Basic

/-!
# Items that threads carry

Each thread carries a list of items, each of them in some stage of its handling, and an item
that no thread carries is at some other place. The lists and the places agree when an item is
in the list of a thread exactly when its place says so. What a thread picks up it puts at the
head of its list, and it works on the head only.
-/

namespace CCForge

variable {τ ι ρ η : Type*}

/-- Where an item is. -/
inductive Place (τ ρ η : Type*) where
  | carried (thread : τ) (stage : ρ)
  | elsewhere (where' : η)
  deriving DecidableEq, Repr

structure Carries (load : τ → List (ι × ρ)) (place : ι → Place τ ρ η) : Prop where
  nodup : ∀ t, ((load t).map Prod.fst).Nodup
  mem : ∀ t i x, (i, x) ∈ load t ↔ place i = .carried t x

namespace Carries

variable {load load' : τ → List (ι × ρ)} {place : ι → Place τ ρ η} {t : τ} {i : ι} {x y : ρ} {e : η}
  {rest : List (ι × ρ)}

theorem nothing {place : ι → Place τ ρ η} (h : ∀ i, ∃ e, place i = .elsewhere e) :
    Carries (fun _ : τ => ([] : List (ι × ρ))) place where
  nodup := by simp
  mem t i x := by
    obtain ⟨e, he⟩ := h i
    simp [he]

theorem congr (h : Carries load place) (he : load' = load) : Carries load' place := he ▸ h

/-- The head of a list, and what it says about the rest. -/
theorem of_head (h : Carries load place) (ht : load t = (i, x) :: rest) :
    place i = .carried t x ∧ i ∉ rest.map Prod.fst := by
  have hnodup := h.nodup t
  rw [ht, List.map_cons, List.nodup_cons] at hnodup
  exact ⟨(h.mem t i x).mp (by rw [ht]; exact List.mem_cons_self), hnodup.1⟩

variable [DecidableEq τ] [DecidableEq ι]

/-- The item at the head of a list comes to another place, or to another stage. -/
theorem change_head (h : Carries load place) (ht : load t = (i, x) :: rest) {p : Place τ ρ η}
    (new : List (ι × ρ)) (hnew : new.map Prod.fst = [i] ∨ new = [])
    (hp : ∀ u z, p = .carried u z ↔ u = t ∧ (i, z) ∈ new) :
    Carries (Function.update load t (new ++ rest)) (Function.update place i p) := by
  obtain ⟨hplace, hi⟩ := h.of_head ht
  have hnodup := h.nodup t
  rw [ht, List.map_cons, List.nodup_cons] at hnodup
  have hfst : ∀ z ∈ new, z.1 = i := by
    intro z hz
    have hmem := List.mem_map_of_mem (f := Prod.fst) hz
    obtain hone | rfl := hnew
    · rw [hone, List.mem_singleton] at hmem
      exact hmem
    · cases hz
  refine ⟨fun u => ?_, fun u j z => ?_⟩
  · by_cases hu : u = t
    · subst hu
      rw [Function.update_self, List.map_append]
      obtain hone | rfl := hnew
      · rw [hone]
        exact List.nodup_cons.mpr ⟨hi, hnodup.2⟩
      · exact hnodup.2
    · rw [Function.update_of_ne hu]
      exact h.nodup u
  · by_cases hj : j = i
    · subst hj
      rw [Function.update_self, hp]
      by_cases hu : u = t
      · subst hu
        rw [Function.update_self, List.mem_append]
        have hrest : (j, z) ∉ rest := fun hm => hi (List.mem_map_of_mem (f := Prod.fst) hm)
        simp [hrest]
      · rw [Function.update_of_ne hu, h.mem, hplace]
        constructor
        · intro heq
          cases heq
          exact absurd rfl hu
        · intro hand
          exact absurd hand.1 hu
    · rw [Function.update_of_ne hj, ← h.mem]
      by_cases hu : u = t
      · subst hu
        rw [Function.update_self, ht, List.mem_append, List.mem_cons]
        have hhead : (j, z) ≠ (i, x) := fun heq => hj (congrArg Prod.fst heq)
        have hnone : (j, z) ∉ new := fun hm => hj (hfst _ hm)
        simp [hhead, hnone]
      · rw [Function.update_of_ne hu]

/-- The item at the head comes to another stage. -/
theorem advance (h : Carries load place) (ht : load t = (i, x) :: rest) (y : ρ) :
    Carries (Function.update load t ((i, y) :: rest)) (Function.update place i (.carried t y)) := by
  refine h.change_head ht [(i, y)] (.inl rfl) fun u z => ?_
  simp [eq_comm]

/-- The item at the head is put down. -/
theorem release (h : Carries load place) (ht : load t = (i, x) :: rest) (e : η) :
    Carries (Function.update load t rest) (Function.update place i (.elsewhere e)) := by
  refine h.change_head ht [] (.inr rfl) fun u z => ?_
  simp

/-- The items in `out` are picked up. -/
theorem acquireAll (h : Carries load place) {out : List ι} (hout : out.Nodup)
    (hplace : ∀ i ∈ out, ∃ e, place i = .elsewhere e) (t : τ) (x : ρ) :
    Carries (Function.update load t (out.map (fun i => (i, x)) ++ load t))
      (fun i => if i ∈ out then .carried t x else place i) := by
  have hfst : (out.map fun i => (i, x)).map Prod.fst = out := by
    rw [List.map_map]
    exact List.map_id out
  have hother : ∀ u i z, i ∈ out → (i, z) ∉ load u := by
    intro u i z hi hm
    obtain ⟨e, he⟩ := hplace i hi
    rw [h.mem, he] at hm
    cases hm
  refine ⟨fun u => ?_, fun u i z => ?_⟩
  · by_cases hu : u = t
    · subst hu
      rw [Function.update_self, List.map_append, hfst]
      refine List.nodup_append.mpr ⟨hout, h.nodup u, ?_⟩
      rintro i hi _ hm rfl
      obtain ⟨⟨j, z⟩, hload, rfl⟩ := List.mem_map.mp hm
      exact hother u j z hi hload
    · rw [Function.update_of_ne hu]
      exact h.nodup u
  · by_cases hi : i ∈ out
    · rw [if_pos hi]
      by_cases hu : u = t
      · subst hu
        simp [hi, hother u i z hi, eq_comm]
      · rw [Function.update_of_ne hu]
        refine ⟨fun hm => absurd hm (hother u i z hi), fun heq => ?_⟩
        cases heq
        exact absurd rfl hu
    · rw [if_neg hi, ← h.mem]
      by_cases hu : u = t
      · subst hu
        simp [hi]
      · rw [Function.update_of_ne hu]

theorem acquire (h : Carries load place) (hi : place i = .elsewhere e) (t : τ) (x : ρ) :
    Carries (Function.update load t ((i, x) :: load t)) (Function.update place i (.carried t x)) := by
  have hall := h.acquireAll (List.nodup_singleton i) (fun j hj => ⟨e, by
    rw [List.mem_singleton.mp hj, hi]⟩) t x
  have hplace : (fun j => if j ∈ [i] then Place.carried t x else place j) =
      Function.update place i (.carried t x) := by
    funext j
    by_cases hj : j = i <;> simp [hj]
  rwa [hplace] at hall

omit [DecidableEq τ] in
/-- An item moves between two places that are with no thread. -/
theorem move (h : Carries load place) (hi : place i = .elsewhere e) (e' : η) :
    Carries load (Function.update place i (.elsewhere e')) where
  nodup := h.nodup
  mem u j z := by
    by_cases hj : j = i
    · subst hj
      simp [h.mem, hi]
    · rw [Function.update_of_ne hj, h.mem]

end Carries

end CCForge
