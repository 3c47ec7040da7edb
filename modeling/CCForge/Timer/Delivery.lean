import CCForge.Timer.Model
import Mathlib.Data.List.Sublists
import Mathlib.Algebra.Order.Group.Multiset
import Mathlib.Tactic.Abel

/-!
# Delivery in the order of the deadlines

The vector keeps the order in which items were enqueued, and each iteration takes one
item out of it. An iteration that takes an item for a value saw no shutdown, no stop
request, and no item that comes before it by deadline and then by enqueue.
-/

namespace CCForge.Timer

/-! ## One iteration -/

theorem minElement_spec (first : Item) (rest : List Item) :
    ∃ l₁ l₂, first :: rest = l₁ ++ minElement first rest :: l₂ ∧
      (∀ x ∈ l₁, (minElement first rest).deadline < x.deadline) ∧
      ∀ x ∈ l₂, (minElement first rest).deadline ≤ x.deadline := by
  induction rest generalizing first with
  | nil => exact ⟨[], [], rfl, by simp, by simp⟩
  | cons x rest ih =>
    by_cases hx : x.deadline < first.deadline
    · simp only [minElement, if_pos hx]
      obtain ⟨l₁, l₂, he, h₁, h₂⟩ := ih x
      refine ⟨first :: l₁, l₂, by rw [he]; rfl, ?_, h₂⟩
      have hle : (minElement x rest).deadline ≤ x.deadline := by
        cases l₁ with
        | nil =>
          simp only [List.nil_append, List.cons.injEq] at he
          rw [← he.1]
        | cons a l =>
          simp only [List.cons_append, List.cons.injEq] at he
          exact (h₁ x (by rw [he.1]; exact List.mem_cons_self)).le
      intro y hy
      rcases List.mem_cons.mp hy with rfl | hy
      · omega
      · exact h₁ y hy
    · simp only [minElement, if_neg hx]
      obtain ⟨l₁, l₂, he, h₁, h₂⟩ := ih first
      cases l₁ with
      | nil =>
        simp only [List.nil_append, List.cons.injEq] at he
        refine ⟨[], x :: l₂, ?_, by simp, ?_⟩
        · rw [← he.1, he.2]
          rfl
        · intro y hy
          rcases List.mem_cons.mp hy with rfl | hy
          · rw [← he.1]
            omega
          · exact h₂ y hy
      | cons a l =>
        simp only [List.cons_append, List.cons.injEq] at he
        have ha : (minElement first rest).deadline < first.deadline :=
          h₁ first (by rw [he.1]; exact List.mem_cons_self)
        refine ⟨first :: x :: l, l₂, congrArg (fun r => first :: x :: r) he.2, ?_, h₂⟩
        intro y hy
        rcases List.mem_cons.mp hy with rfl | hy
        · exact ha
        · rcases List.mem_cons.mp hy with rfl | hy
          · omega
          · exact h₁ y (List.mem_cons_of_mem a hy)

/-- What an iteration that delivers `item` with a value saw, `l₁` and `l₂` being the items
before and behind it. -/
structure Shared.Due (s : Shared) (now : ℤ) (item : Item) (l₁ l₂ : List Item) : Prop where
  running : s.stop = false
  unstopped : ∀ x ∈ s.items, s.stopRequested x.id = false
  due : item.deadline ≤ now
  before : ∀ x ∈ l₁, item.deadline < x.deadline
  behind : ∀ x ∈ l₂, item.deadline ≤ x.deadline

theorem Shared.pick_take {s : Shared} {now : ℤ} {item : Item} {completeStopped : Bool}
    {items : List Item} (h : s.pick now = .take item completeStopped items) :
    ∃ l₁ l₂, s.items = l₁ ++ item :: l₂ ∧ items = l₁ ++ l₂ ∧
      (completeStopped = false → s.Due now item l₁ l₂) := by
  unfold Shared.pick at h
  split_ifs at h with hstop
  · cases hlast : s.items.getLast? with
    | none => simp [hlast] at h
    | some last =>
      simp only [hlast, Pick.take.injEq] at h
      obtain ⟨rfl, rfl, rfl⟩ := h
      refine ⟨s.items.dropLast, [], ?_, by simp, nofun⟩
      exact (List.dropLast_append_getLast? last hlast).symm
  · cases hi : s.items with
    | nil => simp [hi] at h
    | cons first rest =>
      simp only [hi] at h
      cases hf : (first :: rest).find? fun item => s.stopRequested item.id with
      | some found =>
        simp only [hf, Pick.take.injEq] at h
        obtain ⟨rfl, rfl, rfl⟩ := h
        obtain ⟨hp, l₁, l₂, he, hno⟩ := List.find?_eq_some_iff_append.mp hf
        refine ⟨l₁, l₂, he, ?_, nofun⟩
        have hnot : found ∉ l₁ := by
          intro hm
          have hn := hno found hm
          rw [hp] at hn
          cases hn
        rw [he, List.erase_append_right _ hnot, List.erase_cons_head]
      | none =>
        simp only [hf] at h
        split_ifs at h with hdue
        simp only [Pick.take.injEq] at h
        obtain ⟨rfl, rfl, rfl⟩ := h
        obtain ⟨l₁, l₂, he, h₁, h₂⟩ := minElement_spec first rest
        refine ⟨l₁, l₂, he, ?_, fun _ => ⟨by simpa using hstop, ?_, hdue, h₁, h₂⟩⟩
        · have hnot : minElement first rest ∉ l₁ := fun hm => lt_irrefl _ (h₁ _ hm)
          rw [he, List.erase_append_right _ hnot, List.erase_cons_head]
        · intro x hx
          rw [hi] at hx
          simpa using List.find?_eq_none.mp hf x hx

theorem Shared.pick_exit {s : Shared} {now : ℤ} (h : s.pick now = .exit) :
    s.stop = true ∧ s.items = [] := by
  unfold Shared.pick at h
  split_ifs at h with hstop
  · cases hlast : s.items.getLast? with
    | none => exact ⟨hstop, List.getLast?_eq_none_iff.mp hlast⟩
    | some last => simp [hlast] at h
  · cases hi : s.items with
    | nil => simp [hi] at h
    | cons first rest =>
      simp only [hi] at h
      split at h
      · cases h
      · split_ifs at h

theorem Shared.pick_wait {s : Shared} {now : ℤ} (h : s.pick now = .wait) : s.stop = false := by
  unfold Shared.pick at h
  split_ifs at h with hstop
  · split at h <;> cases h
  · simpa using hstop

/-! ## The invariant -/

def Worker.hand : Worker → List (Item × Bool)
  | .delivering item completeStopped => [(item, completeStopped)]
  | _ => []

/-- The items that iterations took, in order, with how they are delivered. -/
def State.taken (s : State) : List (Item × Bool) :=
  s.turns.map fun turn => (turn.item, turn.completeStopped)

structure Inv (s : State) : Prop where
  ids : (s.enqueued.map Item.id).Nodup
  sub : s.shared.items.Sublist s.enqueued
  line : (s.enqueued : Multiset Item) =
    s.shared.items + (s.taken.map Prod.fst : List Item) + s.discarded
  hand : s.taken = s.delivered ++ s.worker.hand
  turns : ∀ turn ∈ s.turns, turn.saw.items.Sublist s.enqueued ∧
    (turn.completeStopped = false → ∃ l₁ l₂, turn.saw.items = l₁ ++ turn.item :: l₂ ∧
      turn.saw.Due turn.now turn.item l₁ l₂)
  exited : s.worker = .exited → s.shared.stop = true ∧ s.shared.items = []

variable {s s' : State} {x y : Item}

theorem inv_initial (now : ℤ) : Inv { clock := now } := by
  refine ⟨List.nodup_nil, List.Sublist.slnil, rfl, rfl, ?_, ?_⟩
  · intro turn hm
    cases hm
  · intro hw
    cases hw

theorem Inv.nodup (h : Inv s) : s.enqueued.Nodup := h.ids.of_map

/-- An item is queued, taken or discarded, and only one of these. -/
theorem Inv.parts_nodup (h : Inv s) :
    ((s.shared.items : Multiset Item) + (s.taken.map Prod.fst : List Item) + s.discarded).Nodup := by
  rw [← h.line]
  exact Multiset.coe_nodup.mpr h.nodup

theorem Inv.not_taken (h : Inv s) (hx : x ∈ s.shared.items) (c : Bool) : (x, c) ∉ s.taken := by
  intro hm
  have hd := (Multiset.nodup_add.mp (Multiset.nodup_add.mp h.parts_nodup).1).2.2
  exact Multiset.disjoint_left.mp hd (Multiset.mem_coe.mpr hx)
    (Multiset.mem_coe.mpr (List.mem_map_of_mem hm))

theorem Inv.taken_nodup (h : Inv s) : (s.taken.map Prod.fst).Nodup := by
  have hn := (Multiset.nodup_add.mp (Multiset.nodup_add.mp h.parts_nodup).1).2.1
  exact Multiset.coe_nodup.mp hn

theorem Inv.mem_parts (h : Inv s) (hx : x ∈ s.enqueued) :
    x ∈ s.shared.items ∨ (∃ c, (x, c) ∈ s.taken) ∨ x ∈ s.discarded := by
  have hm : x ∈ (s.enqueued : Multiset Item) := hx
  rw [h.line] at hm
  simpa [or_assoc] using hm

theorem State.enqueue_cases (s : State) (item : Item) (throws : Bool) :
    s.enqueue item throws = s ∨ (s.shared.stop = false ∧ s.enqueue item throws = { s with
      shared := { s.shared with
        items := s.shared.items ++ [item], pending := s.shared.pending + 1 }
      enqueued := s.enqueued ++ [item] }) := by
  unfold State.enqueue Shared.enqueue
  split_ifs with hstop hthrow
  · exact .inl rfl
  · exact .inl rfl
  · exact .inr ⟨by simpa using hstop, rfl⟩

theorem State.discardItem_cases (s : State) (id : ItemId) :
    s.discardItem id = s ∨ ∃ item l₁ l₂, s.shared.items = l₁ ++ item :: l₂ ∧
      s.discardItem id = { s with
        shared := { s.shared with items := l₁ ++ l₂, pending := s.shared.pending - 1 }
        discarded := s.discarded ++ [item] } := by
  unfold State.discardItem Shared.discardItem
  cases hf : s.shared.items.find? fun item => item.id = id with
  | none =>
    left
    simp
  | some item =>
    right
    obtain ⟨hp, l₁, l₂, he, hno⟩ := List.find?_eq_some_iff_append.mp hf
    have hnot : item ∉ l₁ := by
      intro hm
      have hn := hno item hm
      rw [hp] at hn
      cases hn
    refine ⟨item, l₁, l₂, he, ?_⟩
    simp only [he, List.erase_append_right _ hnot, List.erase_cons_head, Option.toList_some]

/-- The three outcomes of an iteration. -/
theorem State.iterate_cases (s : State) (now : ℤ) :
    (s.shared.stop = true ∧ s.shared.items = [] ∧
      s.iterate now = { s with clock := now, worker := .exited }) ∨
    (s.shared.stop = false ∧ s.iterate now = { s with clock := now }) ∨
    ∃ item completeStopped l₁ l₂, s.shared.items = l₁ ++ item :: l₂ ∧
      (completeStopped = false → s.shared.Due now item l₁ l₂) ∧
      s.iterate now = { s with
        clock := now
        shared := { s.shared with items := l₁ ++ l₂ }
        worker := .delivering item completeStopped
        turns := s.turns ++ [⟨item, completeStopped, now, s.shared⟩] } := by
  unfold State.iterate
  cases hp : s.shared.pick now with
  | exit =>
    obtain ⟨hstop, hnil⟩ := Shared.pick_exit hp
    exact .inl ⟨hstop, hnil, rfl⟩
  | wait => exact .inr (.inl ⟨Shared.pick_wait hp, rfl⟩)
  | take item completeStopped items =>
    obtain ⟨l₁, l₂, he, hi, hdue⟩ := Shared.pick_take hp
    refine .inr (.inr ⟨item, completeStopped, l₁, l₂, he, hdue, ?_⟩)
    rw [hi]

theorem middle_eq (l₁ l₂ : List Item) (item : Item) :
    ((l₁ ++ item :: l₂ : List Item) : Multiset Item) = (l₁ ++ l₂ : List Item) + {item} := by
  rw [add_comm, Multiset.singleton_add]
  exact Multiset.coe_eq_coe.mpr List.perm_middle

theorem inv_enqueue (h : Inv s) {item : Item} (throws : Bool)
    (hf : item.id ∉ s.enqueued.map Item.id) : Inv (s.enqueue item throws) := by
  rcases s.enqueue_cases item throws with he | ⟨hstop, he⟩
  · rw [he]
    exact h
  · rw [he]
    refine ⟨?_, h.sub.append (List.Sublist.refl _), ?_, h.hand, ?_, ?_⟩
    · rw [List.map_append]
      refine List.nodup_append.mpr ⟨h.ids, List.nodup_singleton _, ?_⟩
      intro a ha b hb hab
      rw [List.map_singleton, List.mem_singleton] at hb
      exact hf (by rw [← hb, ← hab]; exact ha)
    · rw [← Multiset.coe_add, h.line]
      simp only [State.taken, ← Multiset.coe_add]
      abel
    · intro turn hm
      obtain ⟨hsub, hv⟩ := h.turns turn hm
      exact ⟨hsub.trans (List.sublist_append_left _ _), hv⟩
    · intro hw
      have hs := (h.exited hw).1
      rw [hstop] at hs
      cases hs

theorem inv_discardItem (h : Inv s) (id : ItemId) : Inv (s.discardItem id) := by
  rcases s.discardItem_cases id with he | ⟨item, l₁, l₂, hitems, he⟩
  · rw [he]
    exact h
  · rw [he]
    have hsub : (l₁ ++ l₂).Sublist s.shared.items := by
      rw [hitems]
      exact (List.Sublist.refl l₁).append (List.sublist_cons_self item l₂)
    refine ⟨h.ids, hsub.trans h.sub, ?_, h.hand, h.turns, ?_⟩
    · rw [h.line, hitems, middle_eq, ← Multiset.coe_add s.discarded, Multiset.coe_singleton]
      simp only [State.taken]
      abel
    · intro hw
      have hnil := (h.exited hw).2
      simp [hitems] at hnil

theorem inv_iterate (h : Inv s) (hw : s.worker = .iterating) (now : ℤ) :
    Inv (s.iterate now) := by
  have hhand := h.hand
  rw [hw] at hhand
  rcases s.iterate_cases now with ⟨hstop, hnil, he⟩ | ⟨-, he⟩ |
    ⟨item, completeStopped, l₁, l₂, hitems, hdue, he⟩
  · rw [he]
    exact ⟨h.ids, h.sub, h.line, hhand, h.turns, fun _ => ⟨hstop, hnil⟩⟩
  · rw [he]
    refine ⟨h.ids, h.sub, h.line, h.hand, h.turns, ?_⟩
    intro hx
    exact h.exited hx
  · rw [he]
    have hsub : (l₁ ++ l₂).Sublist s.shared.items := by
      rw [hitems]
      exact (List.Sublist.refl l₁).append (List.sublist_cons_self item l₂)
    have htaken : (s.turns ++ [(⟨item, completeStopped, now, s.shared⟩ : Turn)]).map
        (fun turn => (turn.item, turn.completeStopped)) = s.taken ++ [(item, completeStopped)] := by
      rw [List.map_append]
      rfl
    refine ⟨h.ids, hsub.trans h.sub, ?_, ?_, ?_, nofun⟩
    · rw [State.taken, htaken, h.line, hitems, middle_eq, List.map_append,
        ← Multiset.coe_add (s.taken.map Prod.fst), List.map_singleton, Multiset.coe_singleton]
      abel
    · rw [State.taken, htaken, hhand]
      simp [Worker.hand]
    · intro turn hm
      rcases List.mem_append.mp hm with hm | hm
      · exact h.turns turn hm
      · cases List.mem_singleton.mp hm
        exact ⟨h.sub, fun hv => ⟨l₁, l₂, hitems, hdue hv⟩⟩

theorem inv_step (h : Inv s) {l : Label} (hs : step s l = some s') : Inv s' := by
  cases l with
  | enqueue item throws =>
    simp only [step, Option.ite_none_right_eq_some, Option.some.injEq] at hs
    obtain ⟨hf, rfl⟩ := hs
    exact inv_enqueue h throws hf
  | requestItemStop id =>
    cases hs
    exact ⟨h.ids, h.sub, h.line, h.hand, h.turns, h.exited⟩
  | discardItem id =>
    cases hs
    exact inv_discardItem h id
  | shutdown =>
    cases hs
    exact ⟨h.ids, h.sub, h.line, h.hand, h.turns, fun hw => ⟨rfl, (h.exited hw).2⟩⟩
  | iterate now =>
    simp only [step, Option.ite_none_right_eq_some, Option.some.injEq] at hs
    obtain ⟨⟨hw, -⟩, rfl⟩ := hs
    exact inv_iterate h hw now
  | deliver =>
    simp only [step] at hs
    split at hs
    · next item completeStopped hw =>
      cases hs
      refine ⟨h.ids, h.sub, h.line, ?_, h.turns, nofun⟩
      have hhand := h.hand
      rw [hw] at hhand
      exact hhand.trans (List.append_nil _).symm
    · cases hs
  | account =>
    simp only [step] at hs
    split at hs
    · next item hw =>
      cases hs
      have hhand := h.hand
      rw [hw] at hhand
      exact ⟨h.ids, h.sub, h.line, hhand, h.turns, nofun⟩
    · cases hs

theorem reachable_inv (h : Reachable step Initial s) : Inv s := by
  refine h.preserves (P := Inv) ?_ fun _ _ _ hi hs => inv_step hi hs
  rintro _ ⟨now, rfl⟩
  exact inv_initial now

end CCForge.Timer
