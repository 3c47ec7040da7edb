import CCForge.Hive.ActionGuarantees
import CCForge.Hive.Lookup
import CCForge.Hive.Uses

/-!
# Guarantees of bulk erasure, sorting and lookup

They hold for every hive of a program that moves its hives, writes through iterators, erases in
bulk and sorts.
-/

namespace CCForge.Hive

open World Effect

variable {α : Type} {env : Env α} {pocma : Bool} {w : World α}

/-- The state after some uses. -/
def afterUses (uses : List (Use ℕ)) : World ℕ :=
  uses.foldl (fun w u => (useStep (exampleEnv 1000) false w u).getD w) exampleStore

/-- Four elements in two blocks; one of them is overwritten. -/
def exampleUses : List (Use ℕ) :=
  [.act (.call (.emplace 0 5)), .act (.call (.emplace 0 7)), .act (.call (.emplace 0 5)),
    .act (.call (.emplace 0 1)), .write 0 (.at 0 1) 5]

theorem exampleUsed : Reachable (useStep (exampleEnv 1000) false) (Blank (exampleEnv 1000))
    (afterUses exampleUses) :=
  ⟨exampleStore, exampleBlank 1000, exampleUses, by rfl⟩

/-! ## Bulk erasure -/

/-- Each kind of erasure is a function on the sequence. The iterators are given by the part of the
sequence that begins there; `fuel` is the number of rounds that a loop may make. -/
structure ErasureExact (w : World α) (h : HiveId) : Prop where
  erase : ∀ l₁ p v l₂, w.elements h = l₁ ++ (p, v) :: l₂ →
    OnlyTouches w (w.erase h (iteratorAt p)).2 h ∧
      (w.erase h (iteratorAt p)).2.elements h = l₁ ++ l₂ ∧
      (w.erase h (iteratorAt p)).1 = (w.erase h (iteratorAt p)).2.startOf h l₂
  range : ∀ l₁ l₂ l₃, w.elements h = l₁ ++ (l₂ ++ l₃) →
    let erased := w.eraseRange h (w.startOf h (l₂ ++ l₃)) (w.startOf h l₃)
    OnlyTouches w erased.2 h ∧ erased.2.elements h = l₁ ++ l₃ ∧
      erased.1 = erased.2.startOf h l₃ ∧
      ∀ fuel, l₂.length < fuel →
        eraseLoop h (w.startOf h l₃) fuel (w.startOf h (l₂ ++ l₃)) w = some erased.2
  eraseIf : ∀ pred fuel, w.size h < fuel → ∃ w',
    w.eraseIf h pred fuel = some ((w.elements h).countP fun e => pred e.2,
      (w.elements h).map Prod.snd, w') ∧
    OnlyTouches w w' h ∧ w'.elements h = (w.elements h).filter fun e => ¬pred e.2
  unique : ∀ pred fuel, w.size h ≤ fuel → ∃ w',
    w.unique h pred fuel = some ((w.elements h).length - (w'.elements h).length, w') ∧
    OnlyTouches w w' h ∧ w'.elements h = (w.elements h).destutter (Kept pred)

theorem World.Inv.erasureExact (hi : Inv w) (h : HiveId) : ErasureExact w h := by
  refine ⟨fun l₁ p v l₂ he => erase_at hi he, fun l₁ l₂ l₃ he => ?_, fun pred fuel hf => ?_,
    fun pred fuel hf => ?_⟩
  · obtain ⟨ht, hel, hit⟩ := eraseRange_spec hi he
    exact ⟨ht, hel, hit, fun fuel hf => eraseRange_ends hi he hf⟩
  · obtain ⟨w', hrun, ht, -, hel⟩ := eraseIf_spec pred hi hf
    exact ⟨w', hrun, ht, hel⟩
  · obtain ⟨w', hrun, ht, -, hel⟩ := unique_spec pred hi hf
    exact ⟨w', hrun, ht, hel⟩

/-- `erase` takes out an element or a segment and returns the position behind it, `erase_if` filters
and calls the predicate once for each element, and `unique` keeps the first element of each run. -/
theorem bulk_erasure (hr : Reachable (useStep env pocma) (Blank env) w) (n : ℕ) :
    ErasureExact w (.named n) :=
  (reachable_use_sound hr).settled.inv.erasureExact _

/-- The first three elements are equal. -/
theorem bulk_erasure_example : ErasureExact (afterUses exampleUses) (.named 0) ∧
    ((afterUses exampleUses).elements (.named 0)).map Prod.snd = [5, 5, 5, 1] :=
  ⟨bulk_erasure exampleUsed 0, by decide +kernel⟩

/-! ## Sorting -/

/-- `sort` puts the values in another order at the same positions: the order of the comparator if it
returns, some order if the comparator throws. It returns if neither the table nor the comparator
fails. -/
theorem sort_in_place (hr : Reachable (useStep env pocma) (Blank env) w) (n : ℕ)
    (comp : Comparator α) (lt : α → α → Prop) (horder : IsStrictWeakOrder α lt)
    (hagrees : Agrees comp lt) :
    Permuted w (after (sort env (.named n) comp) (w, 0)).1 (.named n) ∧
      (outcome (sort env (.named n) comp) (w, 0) = .ok () →
        (((after (sort env (.named n) comp) (w, 0)).1.elements (.named n)).map Prod.snd).Pairwise
          fun x y => ¬lt y x) ∧
      (env.throws w.calls = false → (∀ k x y, comp k x y ≠ none) →
        outcome (sort env (.named n) comp) (w, 0) = .ok ()) := by
  have hi := (reachable_use_sound hr).settled.inv
  have hends : Ends (sort env (.named n) comp) (w, 0) _ _ := sort_ends lt hi
  refine ⟨sort_permuted hi _ comp, fun ho => (hends.of_ok ho).2 hagrees, fun halloc hreturns => ?_⟩
  cases ho : outcome (sort env (.named n) comp) (w, 0) with
  | ok _ => rfl
  | error e =>
    obtain ⟨-, hthrow⟩ | ⟨-, k, x, y, hc⟩ := (hends.of_error ho).1
    · rw [halloc] at hthrow
      exact absurd hthrow Bool.false_ne_true
    · exact absurd hc (hreturns k x y)

/-- `<` on the natural numbers; the third call throws. -/
def throwingLess : Comparator ℕ := fun k x y => if k = 2 then none else some (x < y)

theorem throwingLess_agrees : Agrees throwingLess (· < ·) := by
  intro k x y r hr
  unfold throwingLess at hr
  split at hr
  · exact absurd hr (by simp)
  · cases hr
    exact decide_eq_true_iff

theorem sort_in_place_throwing :
    Permuted (afterUses exampleUses)
        (after (sort (exampleEnv 1000) (.named 0) throwingLess) (afterUses exampleUses, 0)).1
        (.named 0) ∧
      outcome (sort (exampleEnv 1000) (.named 0) throwingLess) (afterUses exampleUses, 0) =
        .error .comparator :=
  ⟨(sort_in_place exampleUsed 0 throwingLess (· < ·) isStrictWeakOrder_of_isOrderConnected
    throwingLess_agrees).1, by rfl⟩

/-! ## Lookup -/

/-- Both overloads of `get_iterator` find each live element at its address, and nothing at any
other address, wherever the slots of the blocks lie. -/
theorem get_iterator_exact (hr : Reachable (useStep env pocma) (Blank env) w) (n : ℕ)
    (m : SlotLayout) (hapart : (w.activeBlocks (.named n)).Pairwise (m.Apart w)) :
    (∀ p ∈ w.positions (.named n),
      w.getIteratorConst m (.named n) (m.rawElement p.1 p.2) = iteratorAt p ∧
        w.getIterator m (.named n) (m.rawElement p.1 p.2) = iteratorAt p) ∧
      ∀ target, (∀ p ∈ w.positions (.named n), m.rawElement p.1 p.2 ≠ target) →
        w.getIteratorConst m (.named n) target = w.last (.named n) ∧
          w.getIterator m (.named n) target = w.last (.named n) := by
  obtain ⟨hfound, hnone⟩ := (reachable_use_sound hr).settled.inv.getIterator_exact (.named n) m hapart
  refine ⟨fun p hp => ⟨hfound p hp, ?_⟩, fun target ht => ⟨hnone target ht, ?_⟩⟩
  · rw [getIterator_eq, hfound p hp]
    rw [hfound p hp, iterators]
    exact List.mem_append_left _ (List.mem_map.mpr ⟨p, hp, rfl⟩)
  · rw [getIterator_eq, hnone target ht]
    rw [hnone target ht, iterators]
    exact List.mem_append_right _ List.mem_cons_self

/-- The second block lies before the first one. -/
def exampleLayout : SlotLayout := ⟨fun b => 4096 - 64 * b, 8, 0, by decide⟩

theorem get_iterator_exact_example :
    (afterUses exampleUses).getIterator exampleLayout (.named 0) (4096 + 8) = .at 0 1 ∧
      (afterUses exampleUses).getIterator exampleLayout (.named 0) (4096 + 12) =
        (afterUses exampleUses).last (.named 0) := by
  have hexact := get_iterator_exact exampleUsed 0 exampleLayout (by
    unfold SlotLayout.Apart
    decide +kernel)
  exact ⟨(hexact.1 (0, 1) (by decide +kernel)).2, (hexact.2 (4096 + 12) (by decide +kernel)).2⟩

end CCForge.Hive
