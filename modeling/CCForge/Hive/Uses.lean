import CCForge.Hive.BulkErasure
import CCForge.Hive.LimitsKept
import CCForge.Hive.Sorting

/-!
# Programs that also change the elements

Between the operations of its hives, a program writes through iterators, erases in bulk and sorts.
-/

namespace CCForge.Hive

open World Effect

variable {α : Type}

inductive Use (α : Type) where
  | act (a : Action α)
  /-- `*position = v`. -/
  | write (h : ℕ) (position : Iterator) (v : α)
  | eraseIf (h : ℕ) (pred : α → Bool)
  | unique (h : ℕ) (pred : α → α → Bool)
  | sort (h : ℕ) (comp : Comparator α)

/-- A valid use, whether it returns or throws. -/
def useStep (env : Env α) (pocma : Bool) (w : World α) : Use α → Option (World α)
  | .act a => Hive.act env pocma w a
  | .write h position v =>
    if position ∈ (w.positions (.named h)).map iteratorAt then some (w.assignAt position v) else none
  | .eraseIf h pred =>
    (w.eraseIf (.named h) pred (w.size (.named h) + 1)).map fun r => r.2.2
  | .unique h pred => (w.unique (.named h) pred (w.size (.named h))).map fun r => r.2
  | .sort h comp => some (after (Hive.sort env (.named h) comp) (w, 0)).1

variable {env : Env α} {pocma : Bool} {w w' : World α} {n : ℕ}

/-- Whatever keeps the blocks and their owners in place is sound. -/
theorem Sound.of_touches (hs : Sound env w) (ht : OnlyTouches w w' (.named n))
    (ho : SameOwners w w') : Sound env w' := by
  have hk : KeepsSound env w w' := (ho.keeps hs.tight).sound
  exact ⟨ht.settled hs.settled, hk.tight, hk.legal hs.legal⟩

/-- A write at a live position. -/
theorem Sound.write (hs : Sound env w) {position : Iterator} (v : α)
    (hp : position ∈ (w.positions (.named n)).map iteratorAt) : Sound env (w.assignAt position v) := by
  have hi := hs.settled.inv
  rw [← hi.elements_fst, List.map_map, List.mem_map] at hp
  obtain ⟨e, he, rfl⟩ := hp
  obtain ⟨l₁, l₂, hl⟩ := List.append_of_mem he
  exact hs.of_touches (assignAt_spec hi v hl).1 (same_assignAt _)

theorem sort_permuted (hi : Inv w) (h : HiveId) (comp : Comparator α) :
    Permuted w (after (sort env h comp) (w, 0)).1 h := by
  -- every comparator agrees with an order or with none; where the values end up does not depend on it
  have : IsStrictWeakOrder α fun _ _ => False :=
    { irrefl := fun _ h => h, trans := fun _ _ _ h => h.elim, incomp_trans := fun _ _ _ h _ => h }
  exact Ends.of_both (P := fun t : World α × ℕ => Permuted w t.1 h)
    ((sort_ends (fun _ _ => False) hi).mono (fun _ _ ht => ht.1) fun _ _ ht => ht.2)

theorem useStep_sound {u : Use α} (hs : Sound env w) (hu : useStep env pocma w u = some w') :
    Sound env w' := by
  have hi := hs.settled.inv
  cases u with
  | act a => exact act_sound hs hu
  | write h position v =>
    rw [useStep] at hu
    split at hu
    · next hp =>
      cases hu
      exact hs.write v hp
    · exact absurd hu (by simp)
  | eraseIf h pred =>
    obtain ⟨u, hrun, ht, ho, -⟩ := eraseIf_spec (h := .named h) pred hi (Nat.lt_succ_self _)
    rw [useStep, hrun] at hu
    cases hu
    exact hs.of_touches ht ho
  | unique h pred =>
    obtain ⟨u, hrun, ht, ho, -⟩ := unique_spec (h := .named h) pred hi (le_refl _)
    rw [useStep, hrun] at hu
    cases hu
    exact hs.of_touches ht ho
  | sort h comp =>
    cases hu
    have hperm : Permuted w (after (Hive.sort env (.named h) comp) (w, 0)).1 (.named h) :=
      sort_permuted hi _ comp
    exact hs.of_touches hperm.touches hperm.owners

/-- After any uses of its hives by a program, every one of them is in order. -/
theorem reachable_use_sound (h : Reachable (useStep env pocma) (Blank env) w) : Sound env w :=
  h.preserves (fun _ hb => hb.sound) fun _ _ _ => useStep_sound

end CCForge.Hive
