import CCForge.Lib.HandleSequence
import CCForge.Hive.Rebuild

/-!
# Programs that use hives

A program calls the operations of its hives in any order. A call is valid if the
positions it is given are positions of the hive; that is all that callers promise.
Every call, also one that throws, leaves all hives in order, and its effect on their
contents is one event of a family of sequences with stable handles.
-/

namespace CCForge.Hive

open World Effect

variable {α : Type}

inductive Call (α : Type) where
  | emplace (h : ℕ) (v : α)
  | erase (h : ℕ) (position : Iterator)
  | eraseRange (h : ℕ) (first last : Iterator)
  | reserve (h n : ℕ)
  | trimCapacity (h : ℕ)
  | trimCapacityTo (h n : ℕ)
  | clear (h : ℕ)
  | assign (h : ℕ) (values : List α)
  | reshape (h : ℕ) (limits : Limits)
  | shrinkToFit (h : ℕ)
  | swap (h other : ℕ)
  | splice (h source : ℕ)

namespace Call

/-- The preconditions: `erase` gets a live position, or a range of the hive. -/
def valid (w : World α) : Call α → Bool
  | .erase h position => position ∈ (w.positions (.named h)).map iteratorAt
  | .eraseRange h first last =>
    let its := w.iterators (.named h)
    first ∈ its ∧ last ∈ its ∧ its.idxOf first ≤ its.idxOf last
  | _ => true

def perform (env : Env α) : Call α → HiveM α (Option Iterator)
  | .emplace h v => do return some (← Hive.emplace env (.named h) v)
  | .erase h position => do
    let w ← get
    modify fun w => (w.erase (.named h) position).2
    return some (w.erase (.named h) position).1
  | .eraseRange h first last => do
    let w ← get
    modify fun w => (w.eraseRange (.named h) first last).2
    return some (w.eraseRange (.named h) first last).1
  | .reserve h n => do
    Hive.reserve env (.named h) n
    return none
  | .trimCapacity h => do
    modify (·.trimCapacity (.named h))
    return none
  | .trimCapacityTo h n => do
    modify (·.trimCapacityTo (.named h) n)
    return none
  | .clear h => do
    modify (·.clear (.named h))
    return none
  | .assign h values => do
    Hive.assign env (.named h) values
    return none
  | .reshape h limits => do
    Hive.reshape env (.named h) limits
    return none
  | .shrinkToFit h => do
    Hive.shrinkToFit env (.named h)
    return none
  | .swap h other => do
    modify fun w => Hive.swap env w (.named h) (.named other)
    return none
  | .splice h source => do
    Hive.splice env (.named h) (.named source)
    return none

end Call

/-- A valid call, whether it returns or throws. -/
def step (env : Env α) (w : World α) (c : Call α) : Option (World α) :=
  if c.valid w then some (after (c.perform env) w) else none

/-- All hives have been constructed and are empty. -/
structure Start (env : Env α) (w : World α) : Prop where
  empty : ∀ h, (w.container h).control = none
  limits : ∀ n, isWithinHardLimits env (w.container (.named n)).limits

/-- What is true between two calls. -/
structure Settled (w : World α) : Prop where
  inv : Inv w
  noLocal : NoLocal w

theorem Start.settled {env : Env α} {w : World α} (hs : Start env w) : Settled w :=
  ⟨fun h c hc => absurd ((hs.empty h).symm.trans hc) (by simp), hs.empty .rebuilt⟩

/-- The sequences of the hives. -/
def contents (w : World α) : Contents ℕ Handle α := fun n => w.elements (.named n)

/-- The elements of a hive from `first` up to `last`. -/
def segment (w : World α) (h : HiveId) (first last : Iterator) : List (Handle × α) :=
  ((w.elements h).take ((w.iterators h).idxOf last)).drop ((w.iterators h).idxOf first)

/-- What a call that throws `e` did to the hive `h` if it can rebuild. -/
def rebuildEvent (h : ℕ) (rebuilds : Bool) : Except Error (Option Iterator) → SeqEvent ℕ Handle α
  | .ok _ => if rebuilds then .rebuilt h else .nothing
  | .error .element => .interrupted h
  | .error _ => .nothing

/-- What a caller sees happen. -/
def event (env : Env α) (w : World α) (c : Call α) : SeqEvent ℕ Handle α :=
  match c, outcome (c.perform env) w with
  | .emplace h v, .ok (some it) => .inserted h (it.block.getD 0, it.index) v
  | .erase h position, .ok _ => .erased h ((w.elements (.named h)).filter (iteratorAt ·.1 = position))
  | .eraseRange h first last, .ok _ => .erased h (segment w (.named h) first last)
  | .clear h, .ok _ => .erased h (w.elements (.named h))
  | .assign h values, .ok _ => .replaced h values
  | .assign h values, .error _ =>
    .replaced h (values.take ((after (c.perform env) w).size (.named h)))
  | .reshape h limits, r => rebuildEvent h (reshapeRebuilds w (.named h) limits) r
  | .shrinkToFit h, r => rebuildEvent h (shrinkRebuilds env w (.named h)) r
  | .swap h other, .ok _ => if h = other then .nothing else .swapped h other
  | .splice h source, .ok _ => if h = source then .nothing else .spliced h source
  | _, _ => .nothing

/-- The events of a run. -/
def history (env : Env α) : World α → List (Call α) → List (SeqEvent ℕ Handle α)
  | _, [] => []
  | w, c :: calls => event env w c :: history env (after (c.perform env) w) calls

variable {env : Env α} {w w' : World α} {n : ℕ}

theorem World.OnlyTouches.settled (ht : OnlyTouches w w' (.named n)) (hs : Settled w) : Settled w' := by
  refine ⟨ht.inv, ?_⟩
  unfold NoLocal
  rw [ht.container .rebuilt (by simp)]
  exact hs.noLocal

theorem contents_eq (he : ∀ m, m ≠ n → w'.elements (.named m) = w.elements (.named m)) :
    contents w' = Function.update (contents w) n (w'.elements (.named n)) := by
  funext m
  by_cases hm : m = n
  · subst hm
    simp [contents]
  · simp [contents, hm, he m hm]

theorem World.OnlyTouches.contents (ht : OnlyTouches w w' (.named n)) :
    contents w' = Function.update (contents w) n (w'.elements (.named n)) :=
  contents_eq fun m hm => ht.elements _ (by simpa using hm)

theorem Unchanged.contents (hu : Unchanged w w' (.named n)) : contents w' = contents w := by
  funext m
  exact hu.all _

/-! ## Each call is one event -/

/-- The call leaves everything in order, and its event says what it did. -/
structure Stepped (env : Env α) (w : World α) (c : Call α) : Prop where
  settled : Settled (after (c.perform env) w)
  effect : (event env w c).Effect (Partly env) (contents w) (contents (after (c.perform env) w))

theorem iteratorAt_inj {p q : Handle} (h : iteratorAt p = iteratorAt q) : p = q := by
  simp only [iteratorAt, Iterator.at, Iterator.mk.injEq, Option.some.injEq, and_true] at h
  exact Prod.ext h.1 h.2

theorem World.Inv.elements_nodup (hi : Inv w) (h : HiveId) : ((w.elements h).map Prod.fst).Nodup := by
  rw [hi.elements_fst]
  exact hi.positions_nodup h

theorem Emplaced.fresh {h : HiveId} {v : α} {it : Iterator} (he : Emplaced w w' h v it) :
    ∃ p l₁ l₂, it = iteratorAt p ∧ p ∉ (w.elements h).map Prod.fst ∧ w.elements h = l₁ ++ l₂ ∧
      w'.elements h = l₁ ++ (p, v) :: l₂ := by
  obtain ⟨p, l₁, l₂, hit, hold, hnew⟩ := he.added
  refine ⟨p, l₁, l₂, hit, ?_, hold, hnew⟩
  have hn := he.touches.inv.elements_nodup h
  rw [hnew, List.map_append, List.map_cons, List.nodup_middle, List.nodup_cons] at hn
  rw [hold, List.map_append]
  exact hn.1

theorem emplace_ends (env : Env α) (hs : Settled w) (h : ℕ) (v : α) : Ends ((Call.emplace h v).perform env) w
    (fun r w' => ∃ it, r = some it ∧ Emplaced w w' (.named h) v it)
    (fun _ w' => Unchanged w w' (.named h)) := by
  simp only [Call.perform, ends_bind, ends_pure]
  exact (emplace_spec hs.inv).mono (fun it _ he => ⟨it, rfl, he⟩) fun _ _ hu => hu

theorem emplace_stepped (hs : Settled w) (h : ℕ) (v : α) : Stepped env w (.emplace h v) := by
  have hspec := emplace_ends env hs h v
  cases ho : outcome ((Call.emplace h v).perform env) w with
  | ok r =>
    obtain ⟨it, rfl, he⟩ := hspec.of_ok ho
    refine ⟨he.touches.settled hs, ?_⟩
    obtain ⟨p, l₁, l₂, rfl, hp, hold, hnew⟩ := he.fresh
    simp only [event, ho]
    exact ⟨l₁, l₂, hp, hold, by rw [he.touches.contents, hnew]; rfl⟩
  | error e =>
    have hu := hspec.of_error ho
    refine ⟨hu.touches.settled hs, ?_⟩
    simp only [event, ho]
    exact hu.contents

theorem filter_position {l₁ l₂ : List (Handle × α)} {p : Handle} {v : α}
    (hn : ((l₁ ++ (p, v) :: l₂).map Prod.fst).Nodup) :
    (l₁ ++ (p, v) :: l₂).filter (iteratorAt ·.1 = iteratorAt p) = [(p, v)] := by
  rw [List.map_append, List.map_cons, List.nodup_middle, List.nodup_cons] at hn
  have hout : ∀ l : List (Handle × α), p ∉ l.map Prod.fst →
      l.filter (iteratorAt ·.1 = iteratorAt p) = [] := by
    intro l hp
    rw [List.filter_eq_nil_iff]
    intro e he heq
    exact hp (List.mem_map.mpr ⟨e, he, iteratorAt_inj (by simpa using heq)⟩)
  rw [← List.map_append] at hn
  rw [List.filter_append, List.filter_cons_of_pos (by simp),
    hout l₁ fun hm => hn.1 (by simp only [List.map_append, List.mem_append]; exact .inl hm),
    hout l₂ fun hm => hn.1 (by simp only [List.map_append, List.mem_append]; exact .inr hm)]
  rfl

theorem erase_stepped (hs : Settled w) {h : ℕ} {position : Iterator}
    (hv : (Call.erase h position : Call α).valid w) : Stepped env w (.erase h position) := by
  simp only [Call.valid, decide_eq_true_eq] at hv
  obtain ⟨p, hp, rfl⟩ := List.mem_map.mp hv
  obtain ⟨ht, v, l₁, l₂, hold, hnew, -⟩ := erase_spec hs.inv hp
  refine ⟨ht.settled hs, l₁, l₂, ?_, ?_⟩
  · have hn := hs.inv.elements_nodup (.named h)
    rw [hold] at hn
    show w.elements (.named h) = l₁ ++ ((w.elements (.named h)).filter _ ++ l₂)
    rw [hold, filter_position hn]
    rfl
  · have hcont := ht.contents
    rw [hnew] at hcont
    exact hcont

/-- The iterators of a hive, by the rest of the sequence behind them. -/
theorem World.Inv.iterators_getElem? (hi : Inv w) (h : HiveId) {k : ℕ} (hk : k ≤ (w.elements h).length) :
    (w.iterators h)[k]? = some (w.startOf h ((w.elements h).drop k)) := by
  rw [iterators, ← hi.elements_fst h]
  rcases Nat.lt_or_eq_of_le hk with hlt | rfl
  · rw [List.getElem?_append_left (by simpa using hlt), List.drop_eq_getElem_cons hlt]
    simp [hlt, startOf]
  · rw [List.getElem?_append_right (by simp), List.drop_length]
    simp [startOf]

theorem World.Inv.idxOf_spec (hi : Inv w) {h : HiveId} {it : Iterator} (hm : it ∈ w.iterators h) :
    (w.iterators h).idxOf it ≤ (w.elements h).length ∧
      it = w.startOf h ((w.elements h).drop ((w.iterators h).idxOf it)) := by
  have hlt := List.idxOf_lt_length_of_mem hm
  have hlen : (w.iterators h).length = (w.elements h).length + 1 := by
    rw [iterators, ← hi.elements_fst h]
    simp
  have hle : (w.iterators h).idxOf it ≤ (w.elements h).length := by omega
  refine ⟨hle, ?_⟩
  have hget := hi.iterators_getElem? h hle
  rw [List.getElem?_eq_getElem hlt, List.getElem_idxOf] at hget
  exact Option.some.inj hget

/-- A valid range cuts the sequence in three. -/
theorem World.Inv.range_split (hi : Inv w) {h : HiveId} {first last : Iterator}
    (hf : first ∈ w.iterators h) (hl : last ∈ w.iterators h)
    (hle : (w.iterators h).idxOf first ≤ (w.iterators h).idxOf last) :
    ∃ l₁ l₃, w.elements h = l₁ ++ (segment w h first last ++ l₃) ∧
      first = w.startOf h (segment w h first last ++ l₃) ∧ last = w.startOf h l₃ := by
  obtain ⟨-, hfirst⟩ := hi.idxOf_spec hf
  obtain ⟨-, hlast⟩ := hi.idxOf_spec hl
  generalize hi' : (w.iterators h).idxOf first = i at hfirst hle
  generalize hj' : (w.iterators h).idxOf last = j at hlast hle
  have hseg : segment w h first last ++ (w.elements h).drop j = (w.elements h).drop i := by
    rw [segment, hi', hj', List.drop_take]
    have hdrop : (w.elements h).drop j = ((w.elements h).drop i).drop (j - i) := by
      rw [List.drop_drop]
      congr 1
      omega
    rw [hdrop, List.take_append_drop]
  refine ⟨(w.elements h).take i, (w.elements h).drop j, ?_, ?_, hlast⟩
  · rw [hseg, List.take_append_drop]
  · rw [hseg]
    exact hfirst

theorem eraseRange_stepped (hs : Settled w) {h : ℕ} {first last : Iterator}
    (hv : (Call.eraseRange h first last : Call α).valid w) :
    Stepped env w (.eraseRange h first last) := by
  simp only [Call.valid, decide_eq_true_eq] at hv
  obtain ⟨l₁, l₃, hold, hf, hl⟩ := hs.inv.range_split hv.1 hv.2.1 hv.2.2
  obtain ⟨ht, hnew, -⟩ := eraseRange_spec hs.inv hold
  rw [← hf, ← hl] at ht hnew
  refine ⟨ht.settled hs, l₁, l₃, hold, ?_⟩
  have hcont := ht.contents
  rw [hnew] at hcont
  exact hcont

theorem clear_stepped (hs : Settled w) (h : ℕ) : Stepped env w (.clear h) := by
  obtain ⟨ht, he⟩ := clear_spec (h := .named h) hs.inv
  refine ⟨ht.settled hs, [], [], by simp [contents], ?_⟩
  have hcont := ht.contents
  rw [he] at hcont
  exact hcont

theorem assign_stepped (hs : Settled w) (h : ℕ) (values : List α) :
    Stepped env w (.assign h values) := by
  have hspec : Ends ((Call.assign h values).perform env) w
      (fun _ w' => Refilled w w' (.named h) values)
      (fun _ w' => ∃ l, l <+: values ∧ Refilled w w' (.named h) l) := by
    simp only [Call.perform, ends_bind, ends_pure]
    exact assign_spec hs.inv
  cases ho : outcome ((Call.assign h values).perform env) w with
  | ok r =>
    have hr := hspec.of_ok ho
    refine ⟨hr.touches.settled hs, ?_⟩
    simp only [event, ho]
    exact ⟨_, hr.values, hr.touches.contents⟩
  | error e =>
    obtain ⟨l, hl, hr⟩ := hspec.of_error ho
    refine ⟨hr.touches.settled hs, ?_⟩
    have hsize : (after ((Call.assign h values).perform env) w).size (.named h) = l.length := by
      have hlen := hr.values.length_eq
      rw [List.length_map] at hlen
      rw [hr.touches.inv.size_eq, hlen]
    simp only [event, ho, hsize, ← List.prefix_iff_eq_take.mp hl]
    exact ⟨_, hr.values, hr.touches.contents⟩

/-- Nothing has happened to the elements of the hive. -/
theorem Unchanged.stepped (hs : Settled w) {c : Call α} {h : ℕ}
    (hu : Unchanged w (after (c.perform env) w) (.named h)) (he : event env w c = .nothing) :
    Stepped env w c := by
  refine ⟨hu.touches.settled hs, ?_⟩
  rw [he]
  exact hu.contents

theorem reserve_stepped (hs : Settled w) (h n : ℕ) : Stepped env w (.reserve h n) := by
  have hspec : Ends ((Call.reserve h n : Call α).perform env) w
      (fun _ w' => Unchanged w w' (.named h)) (fun _ w' => Unchanged w w' (.named h)) := by
    simp only [Call.perform, ends_bind, ends_pure]
    exact (reserve_spec hs.inv n).mono (fun _ _ hu => hu.1.unchanged) fun _ _ hu => hu.1.unchanged
  cases ho : outcome ((Call.reserve h n : Call α).perform env) w with
  | ok r => exact (hspec.of_ok ho).stepped hs (by simp [event])
  | error e => exact (hspec.of_error ho).stepped hs (by simp [event])

theorem Reworked.stepped {c : Call α} {h : ℕ} {b : Bool}
    (he : event env w c = rebuildEvent h b (outcome (c.perform env) w))
    (hspec : Ends (c.perform env) w
      (fun _ w' => Reworked w w' (.named h) b SameValues)
      (fun e w' => Reworked w w' (.named h) b (AfterError env e))) : Stepped env w c := by
  have hcontents : ∀ {w' : World α} {R}, Reworked w w' (.named h) b R →
      contents w' = Function.update (contents w) h (w'.elements (.named h)) := fun hr =>
    contents_eq fun m hm => hr.elements _ (by simpa using hm) (by simp)
  have hsame : ∀ {w' : World α} {R}, Reworked w w' (.named h) b R →
      w'.elements (.named h) = w.elements (.named h) → contents w' = contents w := by
    intro w' R hr heq
    rw [hcontents hr, heq]
    exact Function.update_eq_self h (contents w)
  cases ho : outcome (c.perform env) w with
  | ok r =>
    have hr := hspec.of_ok ho
    refine ⟨⟨hr.inv, hr.noLocal⟩, ?_⟩
    rw [he, ho]
    cases b with
    | true => exact ⟨_, hr.source, hcontents hr⟩
    | false => exact hsame hr (hr.kept rfl)
  | error e =>
    have hr := hspec.of_error ho
    refine ⟨⟨hr.inv, hr.noLocal⟩, ?_⟩
    rw [he, ho]
    have hsrc := hr.source
    unfold AfterError at hsrc
    by_cases hel : e = .element
    · subst hel
      rw [if_pos rfl] at hsrc
      exact ⟨_, hsrc, hcontents hr⟩
    · rw [if_neg hel] at hsrc
      have hnothing : (rebuildEvent h b (.error e) : SeqEvent ℕ Handle α) = .nothing := by
        cases e <;> simp_all [rebuildEvent]
      rw [hnothing]
      exact hsame hr hsrc

theorem reshape_stepped (hs : Settled w) (h : ℕ) (limits : Limits) :
    Stepped env w (.reshape h limits) := by
  refine Reworked.stepped (h := h) (b := reshapeRebuilds w (.named h) limits) rfl ?_
  simp only [Call.perform, ends_bind, ends_pure]
  exact reshape_spec hs.inv hs.noLocal (by simp)

theorem shrinkToFit_stepped (hs : Settled w) (h : ℕ) : Stepped env w (.shrinkToFit h) := by
  refine Reworked.stepped (h := h) (b := shrinkRebuilds env w (.named h)) rfl ?_
  simp only [Call.perform, ends_bind, ends_pure]
  exact shrinkToFit_spec hs.inv hs.noLocal (by simp)

/-- Two hives have changed. -/
theorem contents_eq_pair (h other : ℕ) (he : ∀ m, m ≠ h → m ≠ other →
    w'.elements (.named m) = w.elements (.named m)) :
    contents w' = Function.update (Function.update (contents w) h (w'.elements (.named h))) other
      (w'.elements (.named other)) := by
  funext m
  by_cases hm : m = other
  · subst hm
    simp [contents]
  · by_cases hm' : m = h
    · subst hm'
      simp [contents, hm]
    · simp [contents, hm, hm', he m hm' hm]

theorem swap_stepped (hs : Settled w) (h other : ℕ) : Stepped env w (.swap h other) := by
  by_cases hne : h = other
  · subst hne
    have hsame : after ((Call.swap h h : Call α).perform env) w = w := by
      show Hive.swap env w (.named h) (.named h) = w
      simp [Hive.swap]
    refine ⟨by rw [hsame]; exact hs, ?_⟩
    have hevent : event env w (.swap h h) = .nothing := if_pos rfl
    rw [hevent, hsame]
    rfl
  · have hne' : HiveId.named h ≠ .named other := by simpa using hne
    have hx : Exchanged w (Hive.swap env w (.named h) (.named other)) (.named h) (.named other) :=
      swap_spec hs.inv hne'
    have hevent : event env w (.swap h other) = .swapped h other := if_neg hne
    refine ⟨⟨hx.inv, ?_⟩, ?_⟩
    · show ((Hive.swap env w (.named h) (.named other)).container .rebuilt).control = none
      rw [hx.container .rebuilt (by simp) (by simp)]
      exact hs.noLocal
    · rw [hevent]
      have hcont := contents_eq_pair h other fun m hm hm' =>
        hx.elements (.named m) (by simpa using hm) (by simpa using hm')
      rw [hx.left, hx.right] at hcont
      exact hcont

theorem splice_stepped (hs : Settled w) (h source : ℕ) : Stepped env w (.splice h source) := by
  by_cases hne : h = source
  · subst hne
    have hrun : (Call.splice h h : Call α).perform env = pure none := by
      simp [Call.perform, Hive.splice]
    have hsame : after ((Call.splice h h : Call α).perform env) w = w := by
      rw [hrun]
      rfl
    have hevent : event env w (.splice h h) = .nothing := by
      simp only [event]
      rw [hrun]
      exact if_pos rfl
    refine ⟨by rw [hsame]; exact hs, ?_⟩
    rw [hevent, hsame]
    rfl
  · have hspec : Ends ((Call.splice h source : Call α).perform env) w
        (fun _ w' => Absorbed w w' (.named h) (.named source)) (fun _ w' => Silent w w') := by
      simp only [Call.perform, ends_bind, ends_pure]
      exact splice_spec hs.inv (by simpa using hne)
    cases ho : outcome ((Call.splice h source : Call α).perform env) w with
    | ok r =>
      have ha := hspec.of_ok ho
      refine ⟨⟨ha.inv, ?_⟩, ?_⟩
      · unfold NoLocal
        rw [ha.container .rebuilt (by simp) (by simp)]
        exact hs.noLocal
      · simp only [event, ho]
        rw [if_neg hne]
        refine ⟨hne, ?_⟩
        have hcont := contents_eq_pair h source fun m hm hm' =>
          ha.elements (.named m) (by simpa using hm) (by simpa using hm')
        rw [ha.left, ha.right] at hcont
        exact hcont
    | error e =>
      have hsil := hspec.of_error ho
      exact (hsil.unchanged (h := .named h) hs.inv).stepped hs (by simp [event, ho])

/-- Every valid call. -/
theorem step_stepped (hs : Settled w) {c : Call α} (hv : c.valid w) : Stepped env w c := by
  cases c with
  | emplace h v => exact emplace_stepped hs h v
  | erase h position => exact erase_stepped hs hv
  | eraseRange h first last => exact eraseRange_stepped hs hv
  | reserve h n => exact reserve_stepped hs h n
  | trimCapacity h =>
    have hu := (trimCapacity_spec (h := .named h) hs.inv).unchanged
    exact Unchanged.stepped (c := .trimCapacity h) hs hu rfl
  | trimCapacityTo h n =>
    have hu := (trimCapacityTo_spec (h := .named h) hs.inv n).unchanged
    exact Unchanged.stepped (c := .trimCapacityTo h n) hs hu rfl
  | clear h => exact clear_stepped hs h
  | assign h values => exact assign_stepped hs h values
  | reshape h limits => exact reshape_stepped hs h limits
  | shrinkToFit h => exact shrinkToFit_stepped hs h
  | swap h other => exact swap_stepped hs h other
  | splice h source => exact splice_stepped hs h source

theorem step_settled {c : Call α} (hs : Settled w) (h : step env w c = some w') : Settled w' := by
  unfold step at h
  split at h
  · next hv =>
    cases h
    exact (step_stepped hs hv).settled
  · exact absurd h (by simp)

theorem reachable_settled (h : Reachable (step env) (Start env) w) : Settled w :=
  h.preserves (fun _ hs => hs.settled) fun _ _ _ hs ht => step_settled hs ht

end CCForge.Hive
