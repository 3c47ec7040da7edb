import CCForge.Hive.Calls

/-!
# Moving hives

A move takes the control and the limits of the other hive if their allocators allow it, and
moves the elements one by one if they do not. A program is extended by the two move
constructors and by move assignment.
-/

namespace CCForge.Hive

open World Effect

variable {α : Type}

/-- `steal_from`. -/
def stealFrom (w : World α) (h other : HiveId) : World α :=
  let moved := w.container other
  let w := w.modifyContainer h ({ · with control := moved.control, limits := moved.limits })
  let w := w.modifyContainer other ({ · with control := none })
  setOwner w moved.control h

/-- A new hive in the place of `h`. The hive that was there is destroyed before. -/
def construct (w : World α) (h : HiveId) (alloc : Allocator) (limits : Limits) : World α :=
  (w.releaseStorage h).modifyContainer h fun _ => { alloc := alloc, limits := limits }

section

variable (env : Env α)

/-- `block_capacity_default_limits`. -/
def blockCapacityDefaultLimits : Limits :=
  let hard := blockCapacityHardLimits env
  ⟨if hard.max < 8 then hard.max else 8, if hard.max < 4096 then hard.max else 4096⟩

/-- `append_moves`. -/
def appendMoves (h source : HiveId) : HiveM α Unit := do
  let w ← get
  appendMoveTo env h (w.last source) (w.size source + 1) (w.first source)

/-- `hive(hive&&)`. -/
def moveConstruct (w : World α) (h source : HiveId) : World α :=
  let w := construct w h (w.container source).alloc (blockCapacityDefaultLimits env)
  ((stealFrom w h source).touchEnd h).touchEnd source

/-- `hive(hive&&, const Allocator&)`. A constructor that throws leaves no hive behind. -/
def moveConstructWith (h source : HiveId) (alloc : Allocator) (equal : Bool) : HiveM α Unit := do
  modify fun w => construct w h alloc (blockCapacityDefaultLimits env)
  if equal then
    modify fun w => ((stealFrom w h source).touchEnd h).touchEnd source
  else
    tryCatch (appendMoves env h source) fun e => do
      modify (·.releaseStorage h)
      throw e
    modify (·.clear source)

/-- `operator=(hive&&)`. The allocators propagate if `pocma`; `equal` says that they are always
equal or that these two are. -/
def moveAssign (pocma : Bool) (h source : HiveId) (equal : Bool) : HiveM α Unit := do
  if h = source then pure ()
  else if pocma ∨ equal then
    modify fun w =>
      let w := w.releaseStorage h
      let w := w.modifyContainer h fun k =>
        { k with alloc := if pocma then (w.container source).alloc else k.alloc }
      ((stealFrom w h source).touchEnd h).touchEnd source
  else
    let savedEpoch := ((← get).container h).endEpoch
    modify (·.clearWithoutEndInvalidation h)
    tryCatch (appendMoves env h source) fun e => do
      modify (·.modifyContainer h ({ · with endEpoch := savedEpoch }))
      throw e
    modify (·.clear source)
    modify (·.modifyContainer h ({ · with endEpoch := savedEpoch }))

end

/-- What a program may do. -/
inductive Action (α : Type) where
  | call (c : Call α)
  | moveConstruct (h source : ℕ)
  | moveConstructWith (h source : ℕ) (alloc : Allocator) (equal : Bool)
  | moveAssign (h source : ℕ) (equal : Bool)

namespace Action

/-- A new hive cannot be made from itself. -/
def valid (w : World α) : Action α → Bool
  | .call c => c.valid w
  | .moveConstruct h source => h ≠ source
  | .moveConstructWith h source _ _ => h ≠ source
  | .moveAssign _ _ _ => true

def perform (env : Env α) (pocma : Bool) : Action α → HiveM α (Option Iterator)
  | .call c => c.perform env
  | .moveConstruct h source => do
    modify fun w => Hive.moveConstruct env w (.named h) (.named source)
    return none
  | .moveConstructWith h source alloc equal => do
    Hive.moveConstructWith env (.named h) (.named source) alloc equal
    return none
  | .moveAssign h source equal => do
    Hive.moveAssign env pocma (.named h) (.named source) equal
    return none

end Action

/-- A valid action, whether it returns or throws. -/
def act (env : Env α) (pocma : Bool) (w : World α) (a : Action α) : Option (World α) :=
  if a.valid w then some (after (a.perform env pocma) w) else none

/-- All hives are empty and nothing is allocated. -/
structure Blank (env : Env α) (w : World α) : Prop where
  start : Start env w
  heap : ∀ a, w.heap a = false

variable {env : Env α} {pocma : Bool} {w w' : World α} {h other source d : HiveId}

/-! ## Taking over the control of another hive -/

theorem modifyContainer_twice (f g : Container → Container) :
    (w.modifyContainer h f).modifyContainer h g = w.modifyContainer h fun k => g (f k) := by
  simp only [World.modifyContainer, Function.update_self, Function.update_idem]

/-- The hive has the contents of the other one, which is empty. -/
structure Stolen (w w' : World α) (h other : HiveId) : Prop where
  inv : Inv w'
  left : w'.elements h = w.elements other
  right : w'.elements other = []
  elements : ∀ x, x ≠ h → x ≠ other → w'.elements x = w.elements x
  container : ∀ x, x ≠ h → x ≠ other → w'.container x = w.container x

theorem stealFrom_spec (hi : Inv w) (hne : h ≠ other) (hh : (w.container h).control = none) :
    Stolen w (stealFrom w h other) h other := by
  have hlimits : Unchanged w
      (w.modifyContainer h ({ · with limits := (w.container other).limits })) h :=
    modifyContainer_unchanged hi rfl
  cases hs : (w.container other).control with
  | none =>
    have hsteal : stealFrom w h other = (w.modifyContainer h fun k =>
        { k with control := none, limits := (w.container other).limits }).modifyContainer other
          ({ · with control := none }) := by
      simp only [stealFrom, hs, setOwner]
    have h₁ : Unchanged w (w.modifyContainer h fun k =>
        { k with control := none, limits := (w.container other).limits }) h :=
      modifyContainer_unchanged hi hh.symm
    have hother : ((w.modifyContainer h fun k =>
        { k with control := none, limits := (w.container other).limits }).container
          other).control = none := by
      rw [h₁.touches.container other (Ne.symm hne), hs]
    have h₂ := modifyContainer_unchanged (h := other) (f := ({ · with control := none }))
      h₁.touches.inv hother.symm
    rw [← hsteal] at h₂
    have hall : ∀ x, (stealFrom w h other).elements x = w.elements x := fun x =>
      (h₂.all x).trans (h₁.all x)
    refine ⟨h₂.touches.inv, ?_, ?_, fun x _ _ => hall x, fun x hx hx' => ?_⟩
    · rw [hall, elements_of_none hh, elements_of_none hs]
    · rw [hall, elements_of_none hs]
    · rw [h₂.touches.container x hx', h₁.touches.container x hx]
  | some s =>
    have hcontrol : ∀ x, ((w.modifyContainer h
        ({ · with limits := (w.container other).limits })).container x).control =
          (w.container x).control := by
      intro x
      by_cases hx : x = h
      · simp [World.modifyContainer, hx]
      · rw [hlimits.touches.container x hx]
    have hm := migrate_absorbed hlimits.touches.inv hne ((hcontrol h).trans hh)
      ((hcontrol other).trans hs)
    have hsteal : stealFrom w h other = (((w.modifyContainer h
        ({ · with limits := (w.container other).limits })).modifyContainer h
          ({ · with control := some s })).modifyContainer other
            ({ · with control := none })).modifyControl s ({ · with owner := h }) := by
      rw [modifyContainer_twice]
      simp only [stealFrom, hs, setOwner]
    rw [← hsteal] at hm
    refine ⟨hm.inv, ?_, hm.right, fun x hx hx' => ?_, fun x hx hx' => ?_⟩
    · rw [hm.left, hlimits.all, hlimits.all, elements_of_none hh, List.nil_append]
    · rw [hm.elements x hx hx', hlimits.all]
    · rw [hm.container x hx hx', hlimits.touches.container x hx]

theorem touchEnds_settled (hi : Inv w) (hn : NoLocal w) (n m : ℕ) :
    Settled ((w.touchEnd (.named n)).touchEnd (.named m)) := by
  have h₁ : Unchanged w (w.touchEnd (.named n)) (.named n) := touchEnd_unchanged hi
  have h₂ : Unchanged (w.touchEnd (.named n)) ((w.touchEnd (.named n)).touchEnd (.named m))
      (.named m) := touchEnd_unchanged h₁.touches.inv
  exact h₂.touches.settled (h₁.touches.settled ⟨hi, hn⟩)

theorem Stolen.settled {n m : ℕ} (hs : Stolen w w' (.named n) (.named m)) (hn : NoLocal w) :
    Settled ((w'.touchEnd (.named n)).touchEnd (.named m)) := by
  refine touchEnds_settled hs.inv ?_ n m
  unfold NoLocal
  rw [hs.container .rebuilt (by simp) (by simp)]
  exact hn

/-- A hive whose storage is released may get any fields. -/
theorem releaseStorage_modify (hi : Inv w) {f : Container → Container}
    (hf : ∀ k, k.control = none → (f k).control = none) :
    OnlyTouches w ((w.releaseStorage h).modifyContainer h f) h ∧
      (((w.releaseStorage h).modifyContainer h f).container h).control = none := by
  obtain ⟨ht, hnone⟩ := releaseStorage_spec (h := h) hi
  have hu : Unchanged (w.releaseStorage h) ((w.releaseStorage h).modifyContainer h f) h :=
    modifyContainer_unchanged ht.inv ((hf _ hnone).trans hnone.symm)
  refine ⟨ht.trans hu.touches, ?_⟩
  simp only [World.modifyContainer, Function.update_self]
  exact hf _ hnone

/-! ## Moving the elements one by one -/

/-- What `emplace` and the assignments to moved elements keep, the loop of `append_move_to`
keeps. -/
theorem appendMoveTo_keeps {P : World α → Prop} (hne : source ≠ d)
    (hemplace : ∀ u v, World.Inv u → P u →
      Ends (emplace env d v) u (fun _ u' => P u') (fun _ u' => P u'))
    (hassign : ∀ u p v x, World.Inv u → (p, v) ∈ u.elements source → P u →
      P (u.assignAt (iteratorAt p) x)) {fuel : ℕ} :
    ∀ {w : World α} {l₁ l₂ : List (Handle × α)} {last : Iterator}, Inv w → P w →
      w.elements source = l₁ ++ l₂ → last = w.last source →
      Ends (appendMoveTo env d last fuel (w.startOf source l₂)) w
        (fun _ w' => Inv w' ∧ P w') (fun _ w' => Inv w' ∧ P w') := by
  induction fuel with
  | zero =>
    intro w l₁ l₂ last hi hP _ _
    simp only [appendMoveTo, ends_pure]
    exact ⟨hi, hP⟩
  | succ fuel ih =>
    intro w l₁ l₂ last hi hP he hlast
    subst hlast
    cases l₂ with
    | nil =>
      rw [show w.startOf source [] = w.last source from rfl, appendMoveTo, if_pos same_last]
      exact ⟨hi, hP⟩
    | cons e l₂ =>
      obtain ⟨p, v⟩ := e
      have hvalue : w.value (iteratorAt p) = some v := hi.value_eq (h := source) (by simp [he])
      rw [show w.startOf source ((p, v) :: l₂) = iteratorAt p from rfl, appendMoveTo,
        if_neg (by simp [same_iteratorAt])]
      simp only [ends_bind, ends_get, hvalue, ends_tryCatch, ends_modify, ends_throw]
      refine ((emplace_spec hi).and (hemplace w v hi hP)).mono ?_ ?_
      · rintro it u ⟨hu, hPu⟩
        have hsrc : u.elements source = l₁ ++ (p, v) :: l₂ := by
          rw [hu.touches.elements source hne, he]
        have hmem : (p, v) ∈ u.elements source := by simp [hsrc]
        obtain ⟨ht, hel, hcont⟩ := assignAt_spec hu.touches.inv (env.moved v) hsrc
        have hlast : w.last source = (u.assignAt (iteratorAt p) (env.moved v)).last source := by
          simp only [World.last, hcont, hu.touches.container source hne]
        rw [ht.inv.next_eq hel]
        exact ih ht.inv (hassign u p v _ hu.touches.inv hmem hPu)
          (by rw [hel, List.append_cons]) hlast
      · rintro e u ⟨hu, hPu⟩
        split
        · have hsrc : u.elements source = l₁ ++ (p, v) :: l₂ := by rw [hu.all, he]
          have hmem : (p, v) ∈ u.elements source := by simp [hsrc]
          obtain ⟨ht, -, -⟩ := assignAt_spec hu.touches.inv (env.partlyMoved v) hsrc
          exact ⟨ht.inv, hassign u p v _ hu.touches.inv hmem hPu⟩
        · exact ⟨hu.touches.inv, hPu⟩

theorem appendMoves_keeps {P : World α → Prop} (hne : source ≠ d)
    (hemplace : ∀ u v, World.Inv u → P u →
      Ends (emplace env d v) u (fun _ u' => P u') (fun _ u' => P u'))
    (hassign : ∀ u p v x, World.Inv u → (p, v) ∈ u.elements source → P u →
      P (u.assignAt (iteratorAt p) x)) (hi : Inv w) (hP : P w) :
    Ends (appendMoves env d source) w (fun _ w' => Inv w' ∧ P w') (fun _ w' => Inv w' ∧ P w') := by
  simp only [appendMoves, ends_bind, ends_get]
  rw [hi.first_startOf]
  exact appendMoveTo_keeps hne hemplace hassign hi hP (List.nil_append _).symm rfl

theorem appendMoves_settled {n m : ℕ} (hne : m ≠ n) (hs : Settled w) :
    Ends (appendMoves env (.named n) (.named m)) w (fun _ w' => Settled w')
      (fun _ w' => Settled w') := by
  refine (appendMoves_keeps (P := NoLocal) (by simpa using hne) (fun u v hi hn => ?_)
    (fun u p v x hi hp hn => hn) hs.inv hs.noLocal).mono (fun _ _ hu => ⟨hu.1, hu.2⟩)
      fun _ _ hu => ⟨hu.1, hu.2⟩
  exact (emplace_spec hi).mono (fun _ _ he => (he.touches.settled ⟨hi, hn⟩).noLocal)
    fun _ _ hu => (hu.touches.settled ⟨hi, hn⟩).noLocal

/-! ## Every action keeps the hives in order -/

theorem construct_settled {n : ℕ} (hs : Settled w) (alloc : Allocator) (limits : Limits) :
    Settled (construct w (.named n) alloc limits) ∧
      ((construct w (.named n) alloc limits).container (.named n)).control = none := by
  obtain ⟨ht, hnone⟩ := releaseStorage_modify (h := .named n) hs.inv
    (f := fun _ => { alloc := alloc, limits := limits }) fun _ _ => rfl
  exact ⟨ht.settled hs, hnone⟩

theorem steal_settled {n m : ℕ} (hne : n ≠ m) (hs : Settled w)
    (hc : (w.container (.named n)).control = none) :
    Settled (((stealFrom w (.named n) (.named m)).touchEnd (.named n)).touchEnd (.named m)) :=
  (stealFrom_spec hs.inv (by simpa using hne) hc).settled hs.noLocal

theorem clear_settled {n : ℕ} (hs : Settled w) : Settled (w.clear (.named n)) :=
  (clear_spec hs.inv).1.settled hs

theorem moveConstructWith_settled {n m : ℕ} (hne : n ≠ m) (hs : Settled w) (alloc : Allocator)
    (equal : Bool) : Ends (moveConstructWith env (.named n) (.named m) alloc equal) w
      (fun _ w' => Settled w') (fun _ w' => Settled w') := by
  obtain ⟨hnew, hnone⟩ := construct_settled (n := n) hs alloc (blockCapacityDefaultLimits env)
  simp only [moveConstructWith, ends_bind, ends_modify]
  split
  · simp only [ends_modify]
    exact steal_settled hne hnew hnone
  · simp only [ends_bind, ends_tryCatch, ends_modify, ends_throw]
    refine (appendMoves_settled hne.symm hnew).mono (fun _ u hu => clear_settled hu)
      fun _ u hu => ?_
    exact (releaseStorage_spec hu.inv).1.settled hu

theorem epoch_settled {n : ℕ} (hs : Settled w) (epoch : ℕ) :
    Settled (w.modifyContainer (.named n) ({ · with endEpoch := epoch })) :=
  (modifyContainer_unchanged hs.inv rfl : Unchanged w _ (.named n)).touches.settled hs

theorem moveAssign_settled {n m : ℕ} (hs : Settled w) (equal : Bool) :
    Ends (moveAssign env pocma (.named n) (.named m) equal) w
      (fun _ w' => Settled w') (fun _ w' => Settled w') := by
  simp only [moveAssign]
  split
  · exact hs
  · next hne =>
    have hne : n ≠ m := fun he => hne (he ▸ rfl)
    split
    · simp only [ends_modify]
      obtain ⟨ht, hnone⟩ := releaseStorage_modify (h := .named n) hs.inv
        (f := fun k => { k with alloc := if pocma then
          ((w.releaseStorage (.named n)).container (.named m)).alloc else k.alloc }) fun _ hk => hk
      exact steal_settled hne (ht.settled hs) hnone
    · simp only [ends_bind, ends_get, ends_tryCatch, ends_modify, ends_throw]
      have hclear : Settled (w.clearWithoutEndInvalidation (.named n)) :=
        (clearWithoutEndInvalidation_spec hs.inv).1.settled hs
      exact (appendMoves_settled (Ne.symm hne) hclear).mono
        (fun _ u hu => epoch_settled (clear_settled hu) _) fun _ u hu => epoch_settled hu _

theorem perform_settled {a : Action α} (hs : Settled w) (hv : a.valid w) :
    Settled (after (a.perform env pocma) w) := by
  cases a with
  | call c => exact (step_stepped hs hv).settled
  | moveConstruct n m =>
    have hne : n ≠ m := by simpa [Action.valid] using hv
    obtain ⟨hnew, hnone⟩ := construct_settled (n := n) hs (w.container (.named m)).alloc
      (blockCapacityDefaultLimits env)
    exact steal_settled hne hnew hnone
  | moveConstructWith n m alloc equal =>
    have hne : n ≠ m := by simpa [Action.valid] using hv
    refine Ends.of_both (P := Settled) ?_
    simp only [Action.perform, ends_bind, ends_pure]
    exact moveConstructWith_settled hne hs alloc equal
  | moveAssign n m equal =>
    refine Ends.of_both (P := Settled) ?_
    simp only [Action.perform, ends_bind, ends_pure]
    exact moveAssign_settled hs equal

theorem act_settled {a : Action α} (hs : Settled w) (h : act env pocma w a = some w') :
    Settled w' := by
  unfold act at h
  split at h
  · next hv =>
    cases h
    exact perform_settled hs hv
  · exact absurd h (by simp)

/-- After any actions of a program, all hives are in order. -/
theorem reachable_settled_act (h : Reachable (act env pocma) (Blank env) w) : Settled w :=
  h.preserves (fun _ hb => hb.start.settled) fun _ _ _ => act_settled

end CCForge.Hive
