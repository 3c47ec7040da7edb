import Mathlib.Data.List.Destutter
import CCForge.Hive.Capacities

/-!
# Erasure in bulk

The loops of `erase(first, last)`, `erase_if` and `unique` go on from the position that `erase`
returns. `erase_if` and `unique` compare with the `end()` of each round, since the erasure of the
last element replaces it.
-/

namespace CCForge.Hive

open World

variable {α : Type}

namespace World

/-- The condition of the loops of `erase(first, last)`. -/
def rangeContinues (last it : Iterator) : Bool :=
  match last.block with
  | none => it.block.isSome
  | some b => it.block ≠ some b ∨ it.index ≠ last.index

/-- The loops of `erase(first, last)`; `none` if one of them has not come to its end after `fuel`
rounds. -/
def eraseLoop (h : HiveId) (last : Iterator) : ℕ → Iterator → World α → Option (World α)
  | 0, _, _ => none
  | fuel + 1, it, w =>
    if rangeContinues last it then
      let (it', w') := w.erase h it
      eraseLoop h last fuel it' w'
    else some w

/-- The loop of `erase_if`, with the values that the predicate gets; `none` if it reads no element
or has not come to its end after `fuel` rounds. -/
def eraseIfFrom (h : HiveId) (pred : α → Bool) :
    ℕ → Iterator → World α → Option (List α × World α)
  | 0, _, _ => none
  | fuel + 1, current, w =>
    if World.same current (w.last h) then some ([], w)
    else
      match w.value current with
      | none => none
      | some v =>
        let (current', w') := if pred v then w.erase h current else (w.next current, w)
        (eraseIfFrom h pred fuel current' w').map fun r => (v :: r.1, r.2)

/-- `erase_if`: the number of elements removed, the values that the predicate got, the store. -/
def eraseIf (w : World α) (h : HiveId) (pred : α → Bool) (fuel : ℕ) :
    Option (ℕ × List α × World α) :=
  (eraseIfFrom h pred fuel (w.first h) w).map fun r => (w.size h - r.2.size h, r.1, r.2)

/-- The loop of `unique`, with the number of elements removed. -/
def uniqueFrom (h : HiveId) (pred : α → α → Bool) :
    ℕ → Iterator → Iterator → ℕ → World α → Option (ℕ × World α)
  | 0, _, _, _, _ => none
  | fuel + 1, previous, current, removed, w =>
    if World.same current (w.last h) then some (removed, w)
    else
      match w.value current, w.value previous with
      | some x, some kept =>
        if pred x kept then
          let (current', w') := w.erase h current
          uniqueFrom h pred fuel previous current' (removed + 1) w'
        else uniqueFrom h pred fuel current (w.next current) removed w
      | _, _ => none

def unique (w : World α) (h : HiveId) (pred : α → α → Bool) (fuel : ℕ) : Option (ℕ × World α) :=
  if w.size h < 2 then some (0, w)
  else
    let previous := w.first h
    uniqueFrom h pred fuel previous (w.next previous) 0 w

end World

variable {w w' : World α} {h : HiveId} {p : Handle} {v : α} {l₁ l₂ l₃ : List (Handle × α)}

/-! ## One erasure -/

/-- `erase` at a given place of the sequence. -/
theorem erase_at (hi : Inv w) (he : w.elements h = l₁ ++ (p, v) :: l₂) :
    OnlyTouches w (w.erase h (iteratorAt p)).2 h ∧
      (w.erase h (iteratorAt p)).2.elements h = l₁ ++ l₂ ∧
      (w.erase h (iteratorAt p)).1 = (w.erase h (iteratorAt p)).2.startOf h l₂ := by
  have hmem : p ∈ w.positions h := by
    rw [← hi.elements_fst h, he]
    simp
  have hnodup := hi.positions_nodup h
  rw [← hi.elements_fst h, he] at hnodup
  obtain ⟨ht, v', m₁, m₂, hm, hm', hit⟩ := erase_spec hi hmem
  obtain ⟨rfl, -, rfl⟩ : l₁ = m₁ ∧ v = v' ∧ l₂ = m₂ := by
    rw [he] at hm
    exact split_unique hnodup hm
  exact ⟨ht, hm', hit⟩

theorem same_startOf_nil : World.same (w.startOf h []) (w.last h) = true := same_refl _

theorem same_startOf_cons : World.same (w.startOf h ((p, v) :: l₂)) (w.last h) = false :=
  same_iteratorAt p

/-! ## `erase(first, last)` -/

/-- The loop stops at the rest `l₃`, and only there. -/
theorem rangeContinues_startOf {q : Handle} (hq : q ∉ l₃.map Prod.fst) :
    rangeContinues (w.startOf h l₃) (iteratorAt q) = true := by
  cases l₃ with
  | nil => rfl
  | cons e l =>
    have hne : q ≠ e.1 := fun he => hq (he ▸ List.mem_cons_self)
    have hparts : ¬(q.1 = e.1.1 ∧ q.2 = e.1.2) := fun hc => hne (Prod.ext hc.1 hc.2)
    simp only [rangeContinues, startOf, iteratorAt, Iterator.at, decide_eq_true_eq, ne_eq,
      Option.some.injEq]
    tauto

theorem rangeContinues_stop {u : World α} :
    rangeContinues (w.startOf h l₃) (u.startOf h l₃) = false := by
  cases l₃ with
  | nil => rfl
  | cons e l => simp [rangeContinues, startOf, iteratorAt, Iterator.at]

theorem eraseRange_eq (w : World α) (h : HiveId) (first last : Iterator) :
    (w.eraseRange h first last).2 = eraseWhile h (rangeContinues last) (w.size h) first w := by
  cases last with
  | mk block index owner epoch => cases block <;> rfl

/-- The loop comes to its end after one round for each element of the range. -/
theorem eraseLoop_eq {last : Iterator} {fuel rounds : ℕ} (hi : Inv w)
    (hstop : ∀ u : World α, rangeContinues last (u.startOf h l₃) = false)
    (hgo : ∀ q, q ∉ l₃.map Prod.fst → rangeContinues last (iteratorAt q) = true)
    (he : w.elements h = l₁ ++ (l₂ ++ l₃)) (hf : l₂.length < fuel) (hr : l₂.length ≤ rounds) :
    eraseLoop h last fuel (w.startOf h (l₂ ++ l₃)) w =
      some (eraseWhile h (rangeContinues last) rounds (w.startOf h (l₂ ++ l₃)) w) := by
  induction l₂ generalizing w fuel rounds with
  | nil =>
    obtain ⟨fuel, rfl⟩ := Nat.exists_eq_succ_of_ne_zero (Nat.ne_of_gt hf)
    rw [List.nil_append, eraseLoop, if_neg (by simp [hstop w])]
    cases rounds with
    | zero => rfl
    | succ rounds => rw [eraseWhile, if_neg (by simp [hstop w])]
  | cons e l ih =>
    obtain ⟨q, v⟩ := e
    obtain ⟨fuel, rfl⟩ := Nat.exists_eq_succ_of_ne_zero (Nat.ne_of_gt (Nat.zero_lt_of_lt hf))
    obtain ⟨rounds, rfl⟩ := Nat.exists_eq_succ_of_ne_zero (Nat.ne_of_gt (Nat.zero_lt_of_lt hr))
    have hnodup := hi.positions_nodup h
    rw [← hi.elements_fst h, he] at hnodup
    -- the position of an element before the rest is not in it, so no round stops too early
    have hout : q ∉ l₃.map Prod.fst := by
      rw [List.map_append, List.cons_append, List.map_cons, List.nodup_middle, List.nodup_cons,
        List.map_append] at hnodup
      exact fun hm => hnodup.1 (List.mem_append_right _ (List.mem_append_right _ hm))
    have hat : w.elements h = l₁ ++ (q, v) :: (l ++ l₃) := he
    obtain ⟨ht, hm', hit⟩ := erase_at hi hat
    have hc : rangeContinues last (w.startOf h ((q, v) :: l ++ l₃)) = true := hgo q hout
    have hrec := ih ht.inv hm' (Nat.lt_of_succ_lt_succ hf) (Nat.le_of_succ_le_succ hr)
    rw [eraseLoop, eraseWhile, if_pos hc, if_pos hc]
    change eraseLoop h last fuel (w.erase h (iteratorAt q)).1 (w.erase h (iteratorAt q)).2 =
      some (eraseWhile h _ rounds (w.erase h (iteratorAt q)).1 (w.erase h (iteratorAt q)).2)
    rw [hit]
    exact hrec

/-- `erase(first, last)` comes to its end, however long it may run. -/
theorem eraseRange_ends (hi : Inv w) (he : w.elements h = l₁ ++ (l₂ ++ l₃)) {fuel : ℕ}
    (hf : l₂.length < fuel) :
    eraseLoop h (w.startOf h l₃) fuel (w.startOf h (l₂ ++ l₃)) w =
      some (w.eraseRange h (w.startOf h (l₂ ++ l₃)) (w.startOf h l₃)).2 := by
  have hsize : l₂.length ≤ w.size h := by
    rw [hi.size_eq h, he, List.length_append, List.length_append]
    omega
  rw [eraseRange_eq]
  exact eraseLoop_eq hi (fun _ => rangeContinues_stop) (fun _ => rangeContinues_startOf) he hf hsize

/-! ## `erase_if` -/

/-- The loop of `erase_if` filters what it has not seen yet. -/
theorem eraseIfFrom_spec (pred : α → Bool) {fuel : ℕ} (hi : Inv w)
    (he : w.elements h = l₁ ++ l₂) (hf : l₂.length < fuel) :
    ∃ w', eraseIfFrom h pred fuel (w.startOf h l₂) w = some (l₂.map Prod.snd, w') ∧
      OnlyTouches w w' h ∧ SameOwners w w' ∧
      w'.elements h = l₁ ++ l₂.filter fun e => ¬pred e.2 := by
  induction l₂ generalizing w l₁ fuel with
  | nil =>
    obtain ⟨fuel, rfl⟩ := Nat.exists_eq_succ_of_ne_zero (Nat.ne_of_gt hf)
    refine ⟨w, ?_, Silent.onlyTouches .refl hi h, .refl, he⟩
    rw [eraseIfFrom, if_pos same_startOf_nil]
    rfl
  | cons e l ih =>
    obtain ⟨q, v⟩ := e
    obtain ⟨fuel, rfl⟩ := Nat.exists_eq_succ_of_ne_zero (Nat.ne_of_gt (Nat.zero_lt_of_lt hf))
    have hvalue : w.value (w.startOf h ((q, v) :: l)) = some v := hi.value_eq (h := h) (by simp [he])
    rw [eraseIfFrom, if_neg (by simp [same_startOf_cons]), hvalue]
    by_cases hp : pred v
    -- the loop goes on from the position that the erasure returns
    · obtain ⟨ht, hm', hit⟩ := erase_at hi he
      obtain ⟨w', hrun, ht', hs', hel⟩ := ih ht.inv hm' (Nat.lt_of_succ_lt_succ hf)
      refine ⟨w', ?_, ht.trans ht', (same_erase _).trans hs', ?_⟩
      · change (eraseIfFrom h pred fuel (if pred v then w.erase h (iteratorAt q) else _).1
          (if pred v then w.erase h (iteratorAt q) else _).2).map _ = _
        rw [if_pos hp, hit, hrun]
        rfl
      · rw [hel]
        simp [hp]
    · have hnext : w.next (iteratorAt q) = w.startOf h l := hi.next_eq he
      have he' : w.elements h = (l₁ ++ [(q, v)]) ++ l := by simp [he]
      obtain ⟨w', hrun, ht', hs', hel⟩ := ih hi he' (Nat.lt_of_succ_lt_succ hf)
      refine ⟨w', ?_, ht', hs', ?_⟩
      · change (eraseIfFrom h pred fuel (if pred v then _ else (w.next (iteratorAt q), w)).1
          (if pred v then _ else (w.next (iteratorAt q), w)).2).map _ = _
        rw [if_neg hp, hnext, hrun]
        rfl
      · rw [hel]
        simp [hp]

theorem eraseIf_spec (pred : α → Bool) {fuel : ℕ} (hi : Inv w) (hf : w.size h < fuel) :
    ∃ w', w.eraseIf h pred fuel = some ((w.elements h).countP fun e => pred e.2,
        (w.elements h).map Prod.snd, w') ∧
      OnlyTouches w w' h ∧ SameOwners w w' ∧
      w'.elements h = (w.elements h).filter fun e => ¬pred e.2 := by
  rw [hi.size_eq h] at hf
  obtain ⟨w', hrun, ht, hs, hel⟩ := eraseIfFrom_spec pred hi (List.nil_append _).symm hf
  refine ⟨w', ?_, ht, hs, hel⟩
  have hcount : w.size h - w'.size h = (w.elements h).countP fun e => pred e.2 := by
    have hsplit := List.length_eq_countP_add_countP (fun e : Handle × α => pred e.2) (l := w.elements h)
    rw [hi.size_eq h, ht.inv.size_eq h, hel, List.nil_append, ← List.countP_eq_length_filter]
    simp only [Bool.not_eq_true] at hsplit ⊢
    omega
  rw [eraseIf, hi.first_startOf, hrun, Option.map_some, hcount]

/-! ## `unique` -/

/-- The elements that `unique` keeps next to each other. -/
def Kept (pred : α → α → Bool) (kept e : Handle × α) : Prop := ¬pred e.2 kept.2

instance (pred : α → α → Bool) : DecidableRel (Kept pred) := fun _ _ => inferInstanceAs (Decidable (¬_))

/-- The loop of `unique` behind an element that it has kept. -/
theorem uniqueFrom_spec (pred : α → α → Bool) {fuel r : ℕ} (hi : Inv w)
    (he : w.elements h = l₁ ++ (p, v) :: l₂) (hf : l₂.length < fuel) :
    ∃ w', uniqueFrom h pred fuel (iteratorAt p) (w.startOf h l₂) r w =
        some (r + (w.size h - w'.size h), w') ∧
      OnlyTouches w w' h ∧ SameOwners w w' ∧ w'.size h ≤ w.size h ∧
      w'.elements h = l₁ ++ l₂.destutter' (Kept pred) (p, v) := by
  induction l₂ generalizing w l₁ p v fuel r with
  | nil =>
    obtain ⟨fuel, rfl⟩ := Nat.exists_eq_succ_of_ne_zero (Nat.ne_of_gt hf)
    refine ⟨w, ?_, Silent.onlyTouches .refl hi h, .refl, le_refl _, he⟩
    rw [uniqueFrom, if_pos same_startOf_nil, Nat.sub_self, Nat.add_zero]
  | cons e l ih =>
    obtain ⟨q, x⟩ := e
    obtain ⟨fuel, rfl⟩ := Nat.exists_eq_succ_of_ne_zero (Nat.ne_of_gt (Nat.zero_lt_of_lt hf))
    have hx : w.value (w.startOf h ((q, x) :: l)) = some x := hi.value_eq (h := h) (by simp [he])
    have hv : w.value (iteratorAt p) = some v := hi.value_eq (h := h) (by simp [he])
    have he' : w.elements h = (l₁ ++ [(p, v)]) ++ (q, x) :: l := by simp [he]
    rw [uniqueFrom, if_neg (by simp [same_startOf_cons]), hx, hv]
    by_cases hp : pred x v
    -- `previous` stays: the next element is compared with the same one again
    · obtain ⟨ht, hm', hit⟩ := erase_at hi he'
      rw [List.append_assoc, List.singleton_append] at hm'
      obtain ⟨w', hrun, ht', hs', hle, hel⟩ := ih ht.inv hm' (r := r + 1)
        (Nat.lt_of_succ_lt_succ hf)
      have hone : w.size h = (w.erase h (iteratorAt q)).2.size h + 1 := by
        rw [hi.size_eq h, ht.inv.size_eq h, hm', he']
        simp only [List.length_append, List.length_cons, List.length_nil]
        omega
      refine ⟨w', ?_, ht.trans ht', (same_erase _).trans hs', by omega, ?_⟩
      · change (if pred x v then uniqueFrom h pred fuel (iteratorAt p) (w.erase h (iteratorAt q)).1
          (r + 1) (w.erase h (iteratorAt q)).2 else _) = _
        rw [if_pos hp, hit, hrun, show r + 1 +
          ((w.erase h (iteratorAt q)).2.size h - w'.size h) = r + (w.size h - w'.size h) by omega]
      · rw [hel, List.destutter'_cons_neg _ (not_not.mpr hp : ¬Kept pred (p, v) (q, x))]
    · have hnext : w.next (iteratorAt q) = w.startOf h l := hi.next_eq he'
      obtain ⟨w', hrun, ht', hs', hle, hel⟩ := ih hi he' (r := r)
        (Nat.lt_of_succ_lt_succ hf)
      refine ⟨w', ?_, ht', hs', hle, ?_⟩
      · change (if pred x v then _ else uniqueFrom h pred fuel (iteratorAt q)
          (w.next (iteratorAt q)) r w) = _
        rw [if_neg hp, hnext, hrun]
      · rw [hel, List.destutter'_cons_pos _ (hp : Kept pred (p, v) (q, x))]
        simp

/-- `unique` keeps the first element of each run whose other elements satisfy the predicate with
it, and counts the others. -/
theorem unique_spec (pred : α → α → Bool) {fuel : ℕ} (hi : Inv w) (hf : w.size h ≤ fuel) :
    ∃ w', w.unique h pred fuel = some ((w.elements h).length - (w'.elements h).length, w') ∧
      OnlyTouches w w' h ∧ SameOwners w w' ∧
      w'.elements h = (w.elements h).destutter (Kept pred) := by
  unfold World.unique
  by_cases hsmall : w.size h < 2
  · refine ⟨w, ?_, Silent.onlyTouches .refl hi h, .refl, ?_⟩
    · rw [if_pos hsmall, Nat.sub_self]
    · obtain hnil | ⟨e, hone⟩ := hi.elements_of_size_lt_two hsmall
      · rw [hnil, List.destutter_nil]
      · rw [hone, List.destutter_singleton]
  · rw [if_neg hsmall]
    rw [hi.size_eq h] at hsmall hf
    match he : w.elements h with
    | [] => rw [he] at hsmall; simp at hsmall
    | (p, v) :: l =>
      rw [he, List.length_cons] at hf
      have he' : w.elements h = [] ++ (p, v) :: l := he
      obtain ⟨w', hrun, ht, hs, hle, hel⟩ := uniqueFrom_spec pred hi (r := 0) he' hf
      have hfirst : w.first h = iteratorAt p := by
        rw [hi.first_startOf, he]
        rfl
      have hnext : w.next (iteratorAt p) = w.startOf h l := hi.next_eq he'
      refine ⟨w', ?_, ht, hs, ?_⟩
      · rw [hfirst]
        simp only
        rw [hnext, hrun, hi.size_eq h, ht.inv.size_eq h, he, Nat.zero_add]
      · rw [hel, List.nil_append, List.destutter_cons']

end CCForge.Hive
