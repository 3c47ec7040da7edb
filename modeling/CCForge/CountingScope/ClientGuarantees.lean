import CCForge.CountingScope.Clients

/-!
# What a scope promises its clients

A state of `spawn` is there for everyone who uses it, is destroyed once and freed once. An
operation whose association was granted exists only while the scope counts it, so that a join
completes after the last of them is gone. No state is left behind: once its operation has
completed, each is freed by its own steps.
-/

namespace CCForge.CountingScope

variable {n : ℕ}

/-! ## The scope -/

section

variable {s s' : State n} {a : AssociationId} {l : Label n}

/-- The step grants or releases the association. -/
def Label.concerns (a : AssociationId) : Label n → Bool
  | .tryAssociate b | .release _ b => b == a
  | _ => false

theorem live_other (hl : l.concerns a = false) (hs : step s l = some s') :
    a ∈ s'.live ↔ a ∈ s.live := by
  cases l with
  | tryAssociate b =>
    have hb : a ≠ b := by
      rintro rfl
      simp [Label.concerns] at hl
    simp only [step, Option.ite_none_right_eq_some, Option.some.injEq] at hs
    obtain ⟨-, rfl⟩ := hs
    rcases s.shared.tryAssociate_cases with he | ⟨-, -, he⟩
    · rw [State.tryAssociate, he]
    · rw [State.tryAssociate, he, List.mem_append, List.mem_singleton]
      simp [hb]
  | release t b =>
    have hb : a ≠ b := by
      rintro rfl
      simp [Label.concerns] at hl
    simp only [step, Option.ite_none_right_eq_some, Option.some.injEq] at hs
    obtain ⟨-, rfl⟩ := hs
    exact List.mem_erase_of_ne hb
  | startJoin t j =>
    simp only [step, Option.ite_none_right_eq_some, Option.some.injEq] at hs
    obtain ⟨-, rfl⟩ := hs
    unfold State.startJoin
    dsimp only
    split <;> rfl
  | close =>
    cases hs
    rfl
  | requestStop =>
    simp only [step, Option.ite_none_right_eq_some, Option.some.injEq] at hs
    obtain ⟨-, rfl⟩ := hs
    rfl
  | complete t =>
    simp only [step, State.complete] at hs
    split at hs
    · cases hs
    · cases hs
      rfl
    · cases hs
      rfl
  | scheduler j sig =>
    simp only [step, Option.ite_none_right_eq_some, Option.some.injEq] at hs
    obtain ⟨-, rfl⟩ := hs
    rfl

theorem live_tryAssociate (h : Inv s) (hs : step s (.tryAssociate a) = some s') :
    a ∈ s'.live ↔ s.shared.tryAssociate.2 = true := by
  simp only [step, Option.ite_none_right_eq_some, Option.some.injEq] at hs
  obtain ⟨ha, rfl⟩ := hs
  -- names are granted once
  have hlive : a ∉ s.live := fun hm => ha (h.granted a hm)
  rcases s.shared.tryAssociate_cases with he | ⟨-, -, he⟩
  · rw [State.tryAssociate, he]
    simp [hlive]
  · rw [State.tryAssociate, he]
    simp

theorem live_release {t : Fin n} (h : Inv s) (hs : step s (.release t a) = some s') :
    a ∉ s'.live := by
  simp only [step, Option.ite_none_right_eq_some, Option.some.injEq] at hs
  obtain ⟨-, rfl⟩ := hs
  exact h.live.not_mem_erase

theorem joined_of_completed (h : Inv s) (hj : s.completed ≠ [] → s.shared.state = .joined)
    (hs : step s l = some s') : s'.completed ≠ [] → s'.shared.state = .joined := by
  intro hc
  by_cases hold : s.shared.state = .joined
  · exact joined_step h hold hs
  · have hnil : s.completed = [] := by
      by_contra hne
      exact hold (hj hne)
    refine absurd ?_ hc
    -- until the scope is joined no join is ready or scheduled, so none completes
    cases l with
    | tryAssociate b =>
      simp only [step, Option.ite_none_right_eq_some, Option.some.injEq] at hs
      obtain ⟨-, rfl⟩ := hs
      rw [← hnil]
      unfold State.tryAssociate
      split <;> rfl
    | release t b =>
      simp only [step, Option.ite_none_right_eq_some, Option.some.injEq] at hs
      obtain ⟨-, rfl⟩ := hs
      exact hnil
    | startJoin t j =>
      simp only [step, Option.ite_none_right_eq_some, Option.some.injEq] at hs
      obtain ⟨-, rfl⟩ := hs
      rw [← hnil]
      unfold State.startJoin
      dsimp only
      split <;> rfl
    | close =>
      cases hs
      exact hnil
    | requestStop =>
      simp only [step, Option.ite_none_right_eq_some, Option.some.injEq] at hs
      obtain ⟨-, rfl⟩ := hs
      exact hnil
    | complete t =>
      have hr : s.ready t = [] := by
        by_contra hr
        exact hold (h.ready t hr)
      simp [step, State.complete, hr] at hs
    | scheduler j sig =>
      have hr : s.scheduled = [] := by
        by_contra hr
        exact hold (h.scheduled hr)
      simp [step, hr] at hs

end

namespace Clients

/-! ## A state of `spawn` -/

def Launcher.dropped : Launcher → Bool
  | freeing | thrown => true
  | _ => false

def Launcher.freed : Launcher → Bool
  | thrown => true
  | _ => false

def Teardown.dropped : Teardown n → Bool
  | ended => true
  | _ => false

namespace Spawned

/-- The state that belongs to the places of the three parties. -/
def of (t : Fin n) (engaged : Bool) (l : Launcher) (c : Completer n) (d : Teardown n) :
    Spawned n where
  thread := t
  engaged := engaged
  holds := engaged && !(l.dropped || d.dropped)
  launcher := l
  completer := c
  teardown := d
  refs := l.hasRef.toNat + c.hasRef.toNat
  op :=
    if l.constructed then
      if d.destroyed then .destroyed
      else if l.chosen && engaged then .started else .connected
    else .unborn
  allocated := !(l.freed || d.freed)
  destructions := d.destroyed.toNat
  deallocations := l.freed.toNat + d.freed.toNat

/-- The places that go together. -/
structure Valid (engaged : Bool) (l : Launcher) (c : Completer n) (d : Teardown n) : Prop where
  early : l.chosen = false → c = .waiting
  waiting : l.chosen = true → c = .waiting → engaged = true
  completing : l = .completing → engaged = false
  pending : d = .pending ↔ (l.hasRef || c.hasRef) = true

inductive Ok : Spawned n → Prop where
  | intro {t : Fin n} {engaged : Bool} {l : Launcher} {c : Completer n} {d : Teardown n}
    (valid : Valid engaged l c d) : Ok (of t engaged l c d)

variable {t : Fin n} {engaged : Bool} {l : Launcher} {c : Completer n} {d : Teardown n}

theorem ok_new (t : Fin n) (engaged : Bool) :
    Ok ({ thread := t, engaged := engaged } : Spawned n) := by
  have he : ({ thread := t, engaged := engaged } : Spawned n) =
      of t engaged .connecting .waiting .pending := by
    simp [of, Launcher.dropped, Teardown.dropped, Launcher.freed, Launcher.hasRef, Completer.hasRef,
      Launcher.constructed, Teardown.destroyed, Teardown.freed]
  rw [he]
  refine .intro ⟨fun _ => rfl, ?_, ?_, ⟨fun _ => rfl, fun _ => rfl⟩⟩
  · rintro ⟨⟩
  · rintro ⟨⟩

/-- Before the choice nothing but the launching thread has acted. -/
theorem Valid.unchosen (h : Valid engaged l c d) (hl : l.chosen = false) :
    c = .waiting ∧ d = .pending := by
  have hc := h.early hl
  exact ⟨hc, h.pending.mpr (by rw [hc]; cases l <;> rfl)⟩

theorem Valid.of_unchosen {l' : Launcher} (hl : l'.chosen = false) :
    Valid engaged l' (.waiting : Completer n) .pending := by
  refine ⟨fun _ => rfl, fun h => ?_, ?_, ?_⟩
  · rw [hl] at h
    cases h
  · rintro rfl
    cases hl
  · simp [Completer.hasRef]

theorem Valid.of_chosen (hl : l.chosen = true) (hc : l = .completing → engaged = false)
    (hw : c = .waiting → engaged = true) (hp : d = .pending ↔ (l.hasRef || c.hasRef) = true) :
    Valid engaged l c d := by
  refine ⟨fun h => ?_, fun _ => hw, hc, hp⟩
  rw [hl] at h
  cases h

/-- The launching thread drops its reference, the last one if the operation has completed. -/
theorem Valid.release_launcher (h : Valid engaged .releasing c d) :
    Ok { (of t engaged .releasing c d).release t with launcher := .returned } := by
  have hd := h.pending.mpr rfl
  subst hd
  -- the last reference is the one of the launch only when the operation has completed
  cases c with
  | waiting =>
    show Ok (of t engaged .returned .waiting .pending)
    exact .intro (.of_chosen rfl (by rintro ⟨⟩) (h.waiting rfl) (by simp [Completer.hasRef]))
  | releasing u =>
    show Ok (of t engaged .returned (.releasing u) .pending)
    exact .intro (.of_chosen rfl (by rintro ⟨⟩) (by rintro ⟨⟩) (by simp [Completer.hasRef]))
  | returned =>
    show Ok (of t engaged .returned .returned (.destroy t))
    exact .intro (.of_chosen rfl (by rintro ⟨⟩) (by rintro ⟨⟩)
      (by simp [Launcher.hasRef, Completer.hasRef]))

theorem Valid.release_completer {u : Fin n} (h : Valid engaged l (.releasing u) d) :
    Ok { (of t engaged l (.releasing u) d).release u with completer := .returned } := by
  have hl : l.chosen = true := by
    cases hc : l.chosen with
    | true => rfl
    | false => cases h.early hc
  have hd := h.pending.mpr (by simp [Completer.hasRef])
  subst hd
  -- a launch that still has a reference leaves the destruction to itself
  cases hr : l.hasRef with
  | true =>
    have he : { (of t engaged l (.releasing u) .pending).release u with completer := .returned } =
        of t engaged l .returned .pending := by
      simp [of, release, hr, Completer.hasRef]
    rw [he]
    exact .intro (.of_chosen hl h.completing (by rintro ⟨⟩) (by simp [hr]))
  | false =>
    have he : { (of t engaged l (.releasing u) .pending).release u with completer := .returned } =
        of t engaged l .returned (.destroy u) := by
      simp [of, release, hr, Completer.hasRef, Teardown.dropped, Teardown.destroyed, Teardown.freed]
    rw [he]
    exact .intro (.of_chosen hl h.completing (by rintro ⟨⟩) (by simp [hr, Completer.hasRef]))

end Spawned

/-! ## All clients -/

def Stage.isOp : Stage → Bool
  | connected | started | completed => true
  | _ => false

structure Associated.Ok (w : Associated) : Prop where
  inner : w.inner = (w.holds && w.stage.isOp)
  started : w.stage = .started → w.holds = true
  gone : w.stage = .gone → w.holds = false

def Client.Ok : Client n → Prop
  | spawned w => w.Ok
  | associated w => w.Ok

/-- The scope goes through a run of its own, and counts the clients that hold an association. -/
structure Inv (s : State n) : Prop where
  reachable : Reachable CountingScope.step CountingScope.Initial s.scope
  ok : ∀ k c, s.clients k = some c → c.Ok
  held : ∀ k c, s.clients k = some c → (c.holds = true ↔ k ∈ s.scope.live)
  joined : s.scope.completed ≠ [] → s.scope.shared.state = .joined

variable {s s' : State n} {k : AssociationId} {c c' : Client n} {l : Label n}

theorem Inv.scope (h : Inv s) : CountingScope.Inv s.scope := reachable_inv h.reachable

theorem clients_setClient {m : AssociationId} {d : Client n}
    (h : (s.setClient k c').clients m = some d) :
    m = k ∧ d = c' ∨ m ≠ k ∧ s.clients m = some d := by
  rcases eq_or_ne m k with rfl | hm
  · refine .inl ⟨rfl, ?_⟩
    simpa [State.setClient] using h.symm
  · refine .inr ⟨hm, ?_⟩
    simpa [State.setClient, Function.update_of_ne hm] using h

theorem Inv.setClient (h : Inv s) (hk : s.clients k = some c) (hc : c'.Ok)
    (hh : c'.holds = c.holds) : Inv (s.setClient k c') := by
  refine ⟨h.reachable, fun m d hd => ?_, fun m d hd => ?_, h.joined⟩
  · rcases clients_setClient hd with ⟨-, rfl⟩ | ⟨-, hd⟩
    · exact hc
    · exact h.ok m d hd
  · rcases clients_setClient hd with ⟨rfl, rfl⟩ | ⟨-, hd⟩
    · rw [hh]
      exact h.held m c hk
    · exact h.held m d hd

/-- A step of the scope about the association of `k` and of no other client. -/
theorem Inv.scope_step (h : Inv s) {l : CountingScope.Label n} {scope : CountingScope.State n}
    (hl : ∀ m, m ≠ k → l.concerns m = false) (hs : CountingScope.step s.scope l = some scope)
    (hc : c'.Ok) (hh : c'.holds = true ↔ k ∈ scope.live) :
    Inv ({ s with scope := scope }.setClient k c') := by
  refine ⟨h.reachable.next hs, fun m d hd => ?_, fun m d hd => ?_,
    joined_of_completed h.scope h.joined hs⟩
  · rcases clients_setClient hd with ⟨-, rfl⟩ | ⟨-, hd⟩
    · exact hc
    · exact h.ok m d hd
  · rcases clients_setClient hd with ⟨rfl, rfl⟩ | ⟨hm, hd⟩
    · exact hh
    · exact (h.held m d hd).trans (live_other (hl m hm) hs).symm

theorem Inv.tryAssociate (h : Inv s) {c : Bool → Client n}
    (hc : ∀ engaged, (c engaged).Ok ∧ (c engaged).holds = engaged)
    (hs : s.tryAssociate k c = some s') : Inv s' := by
  unfold State.tryAssociate at hs
  split at hs
  · obtain ⟨scope, hscope, rfl⟩ := Option.map_eq_some_iff.mp hs
    refine h.scope_step (fun m hm => ?_) hscope (hc _).1 ?_
    · simpa [CountingScope.Label.concerns] using Ne.symm hm
    · rw [(hc _).2]
      exact (live_tryAssociate h.scope hscope).symm
  · cases hs

theorem Inv.disassociate (h : Inv s) {t : Fin n} (hk : s.clients k = some c) (hc : c'.Ok)
    (hh : c'.holds = false) (hs : s.disassociate t k c.holds c' = some s') : Inv s' := by
  unfold State.disassociate at hs
  split at hs
  · obtain ⟨scope, hscope, rfl⟩ := Option.map_eq_some_iff.mp hs
    refine h.scope_step (fun m hm => ?_) hscope hc ?_
    · simpa [CountingScope.Label.concerns] using Ne.symm hm
    · simp [hh, live_release h.scope hscope]
  · rename_i hf
    cases hs
    exact h.setClient hk hc (by rw [hh]; simpa using hf)

theorem Inv.launch (h : Inv s) {w : Spawned n} (hk : s.clients k = some (.spawned w))
    (hs : s.launch k w = some s') : Inv s' := by
  have hok : w.Ok := h.ok k _ hk
  cases hok with
  | @intro t engaged l c d hv =>
    cases l with
    | connecting => cases hs
    | thrown => cases hs
    | returned => cases hs
    | unwinding =>
      obtain ⟨rfl, rfl⟩ := hv.unchosen rfl
      have he : { Spawned.of t engaged .unwinding (.waiting : Completer n) .pending with
          launcher := .freeing, holds := false } = .of t engaged .freeing .waiting .pending := by
        simp [Spawned.of, Launcher.dropped, Launcher.freed, Launcher.hasRef, Launcher.constructed]
      have hnew : (Client.spawned { Spawned.of t engaged .unwinding .waiting .pending with
          launcher := .freeing, holds := false }).Ok := by
        rw [he]
        exact .intro (.of_unchosen rfl)
      exact h.disassociate hk hnew rfl hs
    | freeing =>
      obtain ⟨rfl, rfl⟩ := hv.unchosen rfl
      cases hs
      refine h.setClient hk ?_ rfl
      show Spawned.Ok (.of t engaged .thrown .waiting .pending)
      exact .intro (.of_unchosen rfl)
    | running =>
      obtain ⟨rfl, rfl⟩ := hv.unchosen rfl
      cases hs
      refine h.setClient hk ?_ rfl
      show Spawned.Ok (.of t engaged .choosing .waiting .pending)
      exact .intro (.of_unchosen rfl)
    | choosing =>
      obtain ⟨rfl, rfl⟩ := hv.unchosen rfl
      cases hs
      -- without an association the state completes itself and the operation is not started
      cases engaged with
      | true =>
        refine h.setClient hk ?_ rfl
        show Spawned.Ok (.of t true .inStart .waiting .pending)
        exact .intro (.of_chosen rfl (by rintro ⟨⟩) (fun _ => rfl) (by simp [Launcher.hasRef]))
      | false =>
        refine h.setClient hk ?_ rfl
        show Spawned.Ok (.of t false .completing (.releasing t) .pending)
        exact .intro (.of_chosen rfl (fun _ => rfl) (by rintro ⟨⟩) (by simp [Launcher.hasRef]))
    | inStart =>
      cases hs
      refine h.setClient hk ?_ rfl
      show Spawned.Ok (.of t engaged .releasing c d)
      exact .intro (.of_chosen rfl (by rintro ⟨⟩) (hv.waiting rfl) hv.pending)
    | completing =>
      cases c with
      | waiting => cases hs
      | releasing u => cases hs
      | returned =>
        cases hs
        refine h.setClient hk ?_ rfl
        show Spawned.Ok (.of t engaged .releasing .returned d)
        exact .intro (.of_chosen rfl (by rintro ⟨⟩) (hv.waiting rfl) hv.pending)
    | releasing =>
      cases hs
      exact h.setClient hk hv.release_launcher rfl

/-- The teardown begins when nobody has a reference. -/
theorem Spawned.Valid.torn {engaged : Bool} {l : Launcher} {c : Completer n} {d : Teardown n}
    (h : Spawned.Valid engaged l c d) (hd : d ≠ .pending) : l = .returned ∧ c = .returned := by
  have hp : ¬ (l.hasRef || c.hasRef) = true := fun hr => hd (h.pending.mpr hr)
  simp only [Bool.or_eq_true, not_or] at hp
  -- a party that has not returned has a reference
  have hc : c = .returned := by
    cases c with
    | waiting => exact absurd rfl hp.2
    | releasing u => exact absurd rfl hp.2
    | returned => rfl
  have hl : l.chosen = true := by
    by_contra hl
    have := h.early (by simpa using hl)
    rw [hc] at this
    cases this
  refine ⟨?_, hc⟩
  cases l with
  | returned => rfl
  | connecting | unwinding | freeing | thrown | running | choosing => cases hl
  | inStart | completing | releasing => exact absurd rfl hp.1

theorem Spawned.Valid.tear {engaged : Bool} {l : Launcher} {c : Completer n} {d d' : Teardown n}
    (h : Spawned.Valid engaged l c d) (hd : d ≠ .pending) (hd' : d' ≠ .pending) :
    Spawned.Valid engaged l c d' := by
  refine ⟨h.early, h.waiting, h.completing, fun hp => absurd hp hd', fun hp => ?_⟩
  exact absurd (h.pending.mpr hp) hd

theorem Inv.tear (h : Inv s) {w : Spawned n} (hk : s.clients k = some (.spawned w))
    (hs : s.tear k w = some s') : Inv s' := by
  have hok : w.Ok := h.ok k _ hk
  cases hok with
  | @intro t engaged l c d hv =>
    cases d with
    | pending => cases hs
    | ended => cases hs
    | destroy u =>
      obtain ⟨rfl, rfl⟩ := hv.torn (by rintro ⟨⟩)
      cases hs
      refine h.setClient hk ?_ rfl
      show Spawned.Ok (.of t engaged .returned .returned (.deallocate u))
      exact .intro (hv.tear (by rintro ⟨⟩) (by rintro ⟨⟩))
    | deallocate u =>
      obtain ⟨rfl, rfl⟩ := hv.torn (by rintro ⟨⟩)
      cases hs
      refine h.setClient hk ?_ rfl
      show Spawned.Ok (.of t engaged .returned .returned (.disassociate u))
      exact .intro (hv.tear (by rintro ⟨⟩) (by rintro ⟨⟩))
    | disassociate u =>
      obtain ⟨rfl, rfl⟩ := hv.torn (by rintro ⟨⟩)
      have he : { Spawned.of t engaged .returned .returned (.disassociate u) with
          holds := false, teardown := .ended } = .of t engaged .returned .returned .ended := by
        simp [Spawned.of, Teardown.dropped, Teardown.freed, Teardown.destroyed]
      have hnew : (Client.spawned { Spawned.of t engaged .returned .returned (.disassociate u) with
          holds := false, teardown := .ended }).Ok := by
        rw [he]
        exact .intro (hv.tear (by rintro ⟨⟩) (by rintro ⟨⟩))
      exact h.disassociate hk hnew rfl hs

theorem Spawned.chosen_of_started {t : Fin n} {engaged : Bool} {l : Launcher} {c : Completer n}
    {d : Teardown n} (h : (Spawned.of t engaged l c d).op = .started) : l.chosen = true := by
  by_contra hl
  have hf : l.chosen = false := by simpa using hl
  simp only [Spawned.of, hf, Bool.false_and, Bool.false_eq_true, if_false] at h
  split at h
  · split at h <;> cases h
  · cases h

theorem Inv.stepSpawned (h : Inv s) {w : Spawned n} (hk : s.clients k = some (.spawned w))
    (hs : s.stepSpawned k w l = some s') : Inv s' := by
  cases l with
  | scope _ | spawn _ _ | associate _ | connectInner _ _ _ | startInner _ | completeInner _
  | destroy _ _ => cases hs
  | launch _ => exact h.launch hk hs
  | tear _ => exact h.tear hk hs
  | connect m throws =>
    have hok : w.Ok := h.ok k _ hk
    cases hok with
    | @intro t engaged l c d hv =>
      simp only [State.stepSpawned, Option.ite_none_right_eq_some, Option.some.injEq] at hs
      obtain ⟨hl, rfl⟩ := hs
      cases hl
      obtain ⟨rfl, rfl⟩ := hv.unchosen rfl
      cases throws with
      | true =>
        refine h.setClient hk ?_ rfl
        show Spawned.Ok (.of t engaged .unwinding .waiting .pending)
        exact .intro (.of_unchosen rfl)
      | false =>
        refine h.setClient hk ?_ rfl
        show Spawned.Ok (.of t engaged .running .waiting .pending)
        exact .intro (.of_unchosen rfl)
  | complete u m =>
    have hok : w.Ok := h.ok k _ hk
    cases hok with
    | @intro t engaged l c d hv =>
      simp only [State.stepSpawned, Option.ite_none_right_eq_some, Option.some.injEq] at hs
      obtain ⟨⟨hop, hc⟩, rfl⟩ := hs
      cases hc
      refine h.setClient hk ?_ rfl
      show Spawned.Ok (.of t engaged l (.releasing u) d)
      exact .intro (.of_chosen (Spawned.chosen_of_started hop) hv.completing (by rintro ⟨⟩)
        hv.pending)
  | release m =>
    have hok : w.Ok := h.ok k _ hk
    cases hok with
    | @intro t engaged l c d hv =>
      cases c with
      | waiting => cases hs
      | returned => cases hs
      | releasing u =>
        cases hs
        exact h.setClient hk hv.release_completer rfl

theorem Associated.ok_gone (w : Associated) (hi : w.inner = false) :
    (Client.associated { w with stage := .gone, holds := false } : Client n).Ok :=
  ⟨by simp [hi], by rintro ⟨⟩, fun _ => rfl⟩

theorem Inv.stepAssociated (h : Inv s) {w : Associated} (hk : s.clients k = some (.associated w))
    (hs : s.stepAssociated k w l = some s') : Inv s' := by
  have hok : w.Ok := h.ok k _ hk
  have hinner := hok.inner
  cases l with
  | scope _ | spawn _ _ | associate _ | connect _ _ | launch _ | complete _ _ | release _
  | tear _ => cases hs
  | connectInner t m throws =>
    simp only [State.stepAssociated, Option.ite_none_right_eq_some] at hs
    obtain ⟨hst, hs⟩ := hs
    rw [hst] at hinner
    split at hs
    · exact h.disassociate hk (w.ok_gone (by simpa [Stage.isOp] using hinner)) rfl hs
    · cases hs
      exact h.setClient hk ⟨by simp [Stage.isOp], by rintro ⟨⟩, by rintro ⟨⟩⟩ rfl
  | startInner m =>
    simp only [State.stepAssociated, Option.ite_none_right_eq_some, Option.some.injEq] at hs
    obtain ⟨hst, rfl⟩ := hs
    rw [hst] at hinner
    cases hw : w.holds with
    | true =>
      rw [hw] at hinner
      exact h.setClient hk ⟨by simpa [Stage.isOp] using hinner, fun _ => rfl, by rintro ⟨⟩⟩ hw.symm
    | false =>
      rw [hw] at hinner
      exact h.setClient hk ⟨by simpa [Stage.isOp] using hinner, by rintro ⟨⟩, by rintro ⟨⟩⟩ hw.symm
  | completeInner m =>
    simp only [State.stepAssociated, Option.ite_none_right_eq_some, Option.some.injEq] at hs
    obtain ⟨hst, rfl⟩ := hs
    rw [hst] at hinner
    exact h.setClient hk ⟨by simpa [Stage.isOp] using hinner, by rintro ⟨⟩, by rintro ⟨⟩⟩ rfl
  | destroy t m =>
    simp only [State.stepAssociated] at hs
    cases hst : w.stage with
    | sender =>
      rw [hst] at hs hinner
      exact h.disassociate hk (w.ok_gone (by simpa [Stage.isOp] using hinner)) rfl hs
    | dropping =>
      rw [hst] at hs hinner
      exact h.disassociate hk (w.ok_gone (by simpa [Stage.isOp] using hinner)) rfl hs
    | connected =>
      rw [hst] at hs
      cases hs
      exact h.setClient hk ⟨by simp [Stage.isOp], by rintro ⟨⟩, by rintro ⟨⟩⟩ rfl
    | completed =>
      rw [hst] at hs
      cases hs
      exact h.setClient hk ⟨by simp [Stage.isOp], by rintro ⟨⟩, by rintro ⟨⟩⟩ rfl
    | started =>
      rw [hst] at hs
      cases hs
    | gone =>
      rw [hst] at hs
      cases hs

theorem Inv.stepClient (h : Inv s) (hs : s.stepClient k l = some s') : Inv s' := by
  obtain ⟨c, hk, hs⟩ := Option.bind_eq_some_iff.mp hs
  cases c with
  | spawned w => exact h.stepSpawned hk hs
  | associated w => exact h.stepAssociated hk hs

theorem Inv.step (h : Inv s) (hs : step s l = some s') : Inv s' := by
  cases l with
  | scope l =>
    simp only [Clients.step] at hs
    split at hs
    · cases hs
    · rename_i hown
      obtain ⟨scope, hscope, rfl⟩ := Option.map_eq_some_iff.mp hs
      refine ⟨h.reachable.next hscope, h.ok, fun m d hd => ?_,
        joined_of_completed h.scope h.joined hscope⟩
      -- a step of the scope alone is about no client
      have hm : l.concerns m = false := by
        by_contra hm
        refine hown ?_
        cases l with
        | tryAssociate a =>
          simp only [CountingScope.Label.concerns, Bool.not_eq_false, beq_iff_eq] at hm
          subst hm
          exact Option.isSome_of_mem hd
        | release t a =>
          simp only [CountingScope.Label.concerns, Bool.not_eq_false, beq_iff_eq] at hm
          subst hm
          exact Option.isSome_of_mem hd
        | _ => exact absurd rfl hm
      exact (h.held m d hd).trans (live_other hm hscope).symm
  | spawn t k =>
    exact h.tryAssociate (c := fun engaged => .spawned { thread := t, engaged := engaged })
      (fun engaged => ⟨Spawned.ok_new t engaged, rfl⟩) hs
  | associate k =>
    refine h.tryAssociate (c := fun engaged => .associated { holds := engaged })
      (fun engaged => ⟨⟨?_, ?_, ?_⟩, rfl⟩) hs
    · simp [Stage.isOp]
    · rintro ⟨⟩
    · rintro ⟨⟩
  | connect k throws => exact h.stepClient hs
  | launch k => exact h.stepClient hs
  | complete t k => exact h.stepClient hs
  | release k => exact h.stepClient hs
  | tear k => exact h.stepClient hs
  | connectInner t k throws => exact h.stepClient hs
  | startInner k => exact h.stepClient hs
  | completeInner k => exact h.stepClient hs
  | destroy t k => exact h.stepClient hs

theorem inv_of_reachable (h : Reachable step Initial s) : Inv s := by
  refine h.preserves (P := Inv) ?_ fun _ _ _ hi hs => Inv.step hi hs
  rintro _ ⟨scope, hscope, rfl⟩
  refine ⟨⟨scope, hscope, [], rfl⟩, ?_, ?_, ?_⟩
  · rintro k c ⟨⟩
  · rintro k c ⟨⟩
  · obtain ⟨kind, rfl⟩ := hscope
    exact fun hc => absurd rfl hc

/-! ## Nothing is used after its destruction -/

/-- The threads in `__run` and in `__release` use the state. -/
def Spawned.inUse (w : Spawned n) : Bool :=
  w.launcher == .running || w.launcher.hasRef || w.launcher.chosen && w.completer.hasRef

structure Protected (s : State n) : Prop where
  used : ∀ k w, s.clients k = some (.spawned w) → w.inUse = true →
    w.allocated = true ∧ (w.op = .connected ∨ w.op = .started)
  once : ∀ k w, s.clients k = some (.spawned w) → w.destructions ≤ 1 ∧ w.deallocations ≤ 1
  refused : ∀ k w, s.clients k = some (.spawned w) → w.engaged = false → w.op ≠ .started
  counted : ∀ k c, s.clients k = some c → c.alive = true → k ∈ s.scope.live
  /-- The memory of a state goes before its association. -/
  freed : ∀ k w, s.clients k = some (.spawned w) → w.engaged = true →
    w.launcher.constructed = true → w.allocated = true → k ∈ s.scope.live
  joins : JoinsAtZero s.scope
  joined : s.scope.completed ≠ [] → ∀ k c, s.clients k = some c → c.alive = false

theorem Spawned.Valid.used {engaged : Bool} {l : Launcher} {c : Completer n} {d : Teardown n}
    {t : Fin n} (h : Spawned.Valid engaged l c d) (hu : (Spawned.of t engaged l c d).inUse = true) :
    l.constructed = true ∧ d = .pending := by
  have hl : l.constructed = true := by
    cases l <;> first | rfl | simp [Spawned.inUse, Spawned.of, Launcher.hasRef, Launcher.chosen] at hu
  refine ⟨hl, h.pending.mpr ?_⟩
  simp only [Spawned.inUse, Spawned.of, Bool.or_eq_true, Bool.and_eq_true, beq_iff_eq] at hu
  rcases hu with (rfl | hr) | ⟨-, hr⟩
  · rw [h.early rfl]
    rfl
  · simp [hr]
  · simp [hr]

/-- A constructed state that is not freed holds the association it was granted. -/
theorem Spawned.holds_of_constructed {engaged : Bool} {l : Launcher} {c : Completer n}
    {d : Teardown n} {t : Fin n} (hl : l.constructed = true) (hd : d.freed = false)
    (he : engaged = true) : (Spawned.of t engaged l c d).holds = true := by
  have hld : l.dropped = false := by cases l <;> first | rfl | cases hl
  have hdd : d.dropped = false := by cases d <;> first | rfl | cases hd
  simp [Spawned.of, he, hld, hdd]

theorem Inv.counted (h : Inv s) (hk : s.clients k = some c) (ha : c.alive = true) :
    k ∈ s.scope.live := by
  refine (h.held k c hk).mp ?_
  cases c with
  | associated w =>
    have hok : w.Ok := h.ok k _ hk
    have hi : w.inner = true := ha
    rw [hok.inner, Bool.and_eq_true] at hi
    exact hi.1
  | spawned w =>
    have hok : w.Ok := h.ok k _ hk
    cases hok with
    | @intro t engaged l c d hv =>
      simp only [Client.alive, Bool.and_eq_true, Bool.or_eq_true, beq_iff_eq] at ha
      obtain ⟨he, hop⟩ := ha
      cases hl : l.constructed with
      | false => simp [Spawned.of, hl] at hop
      | true =>
        refine Spawned.holds_of_constructed hl ?_ he
        cases d <;> first | rfl | simp [Spawned.of, hl, Teardown.destroyed] at hop

/-- In every run of a scope and its clients, a state of `spawn` is destroyed and freed at most
once and never used after that, an operation with a granted association exists only while the
scope counts it, and none is left when a join completes. -/
theorem scope_outlives_clients (h : Reachable step Initial s) : Protected s := by
  have hi := inv_of_reachable h
  refine ⟨fun k w hk hu => ?_, fun k w hk => ?_, fun k w hk he => ?_, fun k c => hi.counted,
    fun k w hk he hl ha => ?_, scope_joins_at_zero hi.reachable, fun hc k c hk => ?_⟩
  · have hok : w.Ok := hi.ok k _ hk
    cases hok with
    | intro hv =>
      obtain ⟨hl, rfl⟩ := hv.used hu
      refine ⟨?_, ?_⟩
      · simp only [Spawned.of, Teardown.freed, Bool.or_false]
        rename_i l _
        cases l <;> first | rfl | cases hl
      · simp only [Spawned.of, hl, if_true, Teardown.destroyed, Bool.false_eq_true, if_false]
        split
        · exact .inr rfl
        · exact .inl rfl
  · have hok : w.Ok := hi.ok k _ hk
    cases hok with
    | @intro t engaged l c d hv =>
      refine ⟨Bool.toNat_le _, ?_⟩
      cases hl : l.freed with
      | false => simpa [Spawned.of, hl] using Bool.toNat_le d.freed
      | true =>
        cases l <;> cases hl
        rw [(hv.unchosen rfl).2]
        simp [Spawned.of, Teardown.freed, Launcher.freed]
  · have hok : w.Ok := hi.ok k _ hk
    cases hok with
    | intro hv =>
      cases he
      simp only [Spawned.of, Bool.and_false, Bool.false_eq_true, if_false]
      split
      · split <;> rintro ⟨⟩
      · rintro ⟨⟩
  · have hok : w.Ok := hi.ok k _ hk
    refine (hi.held k _ hk).mp ?_
    cases hok with
    | intro hv =>
      refine Spawned.holds_of_constructed hl ?_ he
      simp only [Spawned.of, Bool.not_eq_eq_eq_not, Bool.not_true, Bool.or_eq_false_iff] at ha
      exact ha.2
  · cases ha : c.alive with
    | false => rfl
    | true =>
      -- a joined scope counts nothing
      have hm := hi.counted hk ha
      rw [List.eq_nil_of_length_eq_zero (hi.scope.ok.joined (hi.joined hc))] at hm
      cases hm

/-- A join waits for client 0, whose operation completes on another thread while its call of
`start` runs; client 5 comes too late and is not started. -/
theorem scope_outlives_clients_join : ∃ s : State 2, Reachable step Initial s ∧
    s.scope.granted = [0] ∧ s.scope.completed = [(9, .value, 0)] ∧ Protected s := by
  obtain ⟨s, hs, hg, hc⟩ : ∃ s : State 2, run step { scope := { kind := .simple } }
      [.spawn 0 0, .connect 0 false, .launch 0, .launch 0, .scope (.startJoin 1 9), .complete 1 0,
        .release 0, .launch 0, .scope .close, .spawn 1 5, .connect 5 false, .launch 5, .launch 5,
        .release 5, .launch 5, .launch 5, .tear 5, .tear 5, .tear 5, .launch 0, .tear 0, .tear 0,
        .tear 0, .scope (.complete 0), .scope (.scheduler 9 .value)] = some s ∧
      s.scope.granted = [0] ∧ s.scope.completed = [(9, .value, 0)] := ⟨_, rfl, rfl, rfl⟩
  have hr : Reachable step Initial s := ⟨_, ⟨_, ⟨.simple, rfl⟩, rfl⟩, _, hs⟩
  exact ⟨s, hr, hg, hc, scope_outlives_clients hr⟩

/-! ## No state is left behind -/

/-- The step is one of the state's own, which no other client has to make. -/
def Label.own (k : AssociationId) : Label n → Bool
  | .connect m _ | .launch m | .release m | .tear m => m == k
  | _ => false

def Launcher.rank : Launcher → ℕ
  | connecting => 6
  | running => 5
  | choosing => 4
  | unwinding | inStart | completing => 2
  | freeing | releasing => 1
  | thrown | returned => 0

def Completer.rank : Completer n → ℕ
  | releasing _ => 1
  | waiting | returned => 0

def Teardown.rank : Teardown n → ℕ
  | pending => 4
  | destroy _ => 3
  | deallocate _ => 2
  | disassociate _ => 1
  | ended => 0

namespace Spawned

def rank (w : Spawned n) : ℕ := w.launcher.rank + w.completer.rank + w.teardown.rank

/-- The call of `spawn` has returned, and the operation has not completed. -/
def Waiting (w : Spawned n) : Prop :=
  w.launcher = .returned ∧ w.op = .started ∧ w.completer = .waiting

/-- The memory is freed and the association gone. -/
def Freed (w : Spawned n) : Prop := w.allocated = false ∧ w.deallocations = 1 ∧ w.holds = false

end Spawned

/-- A step of the state's own is possible. -/
def Moves (s : State n) (k : AssociationId) (w : Spawned n) : Prop :=
  ∃ l : Label n, l.own k = true ∧ ∃ s' w', step s l = some s' ∧
    s'.clients k = some (.spawned w') ∧ w'.rank < w.rank

theorem Moves.set {w w' : Spawned n} {l : Label n} (hl : l.own k = true)
    (hs : step s l = some (s.setClient k (.spawned w'))) (hr : w'.rank < w.rank) : Moves s k w :=
  ⟨l, hl, _, w', hs, by simp [State.setClient], hr⟩

theorem Moves.disassociate {w w' : Spawned n} {t : Fin n} (h : Inv s) {l : Label n}
    (hk : s.clients k = some (.spawned w)) (hl : l.own k = true)
    (hs : step s l = s.disassociate t k w.holds (.spawned w')) (hr : w'.rank < w.rank) :
    Moves s k w := by
  cases hh : w.holds with
  | false =>
    refine .set hl ?_ hr
    rw [hs, hh]
    rfl
  | true =>
    have hm : k ∈ s.scope.live := (h.held k _ hk).mp hh
    refine ⟨l, hl, { s with scope := s.scope.release t k }.setClient k (.spawned w'), w', ?_, ?_, hr⟩
    · rw [hs, hh]
      simp [State.disassociate, CountingScope.step, hm]
    · simp [State.setClient]

theorem step_client {w : Spawned n} (hk : s.clients k = some (.spawned w)) :
    s.stepClient k l = s.stepSpawned k w l := by
  rw [State.stepClient, hk]
  rfl

theorem Inv.moves (h : Inv s) {w : Spawned n} (hk : s.clients k = some (.spawned w)) :
    Moves s k w ∨ w.Waiting ∨ w.Freed := by
  have hlaunch : Clients.step s (.launch k) = s.launch k w := step_client hk
  have hrelease : Clients.step s (.release k) = s.stepSpawned k w (.release k) := step_client hk
  have htear : Clients.step s (.tear k) = s.tear k w := step_client hk
  have hconnect : Clients.step s (.connect k false) = s.stepSpawned k w (.connect k false) :=
    step_client hk
  have hown : (Label.launch k : Label n).own k = true := by simp [Label.own]
  have hreleases : (Label.release k : Label n).own k = true := by simp [Label.own]
  have htears : (Label.tear k : Label n).own k = true := by simp [Label.own]
  have hok : w.Ok := h.ok k _ hk
  cases hok with
  | @intro t engaged l c d hv =>
    cases l with
    | connecting =>
      exact .inl (.set (by simp [Label.own]) hconnect (by
        simp [Spawned.rank, Spawned.of, Launcher.rank]))
    | unwinding =>
      exact .inl (.disassociate h hk hown hlaunch (by
        simp [Spawned.rank, Spawned.of, Launcher.rank]))
    | freeing =>
      exact .inl (.set hown hlaunch (by simp [Spawned.rank, Spawned.of, Launcher.rank]))
    | thrown =>
      obtain ⟨rfl, rfl⟩ := hv.unchosen rfl
      exact .inr (.inr ⟨rfl, rfl, by simp [Spawned.of, Launcher.dropped]⟩)
    | running =>
      exact .inl (.set hown hlaunch (by simp [Spawned.rank, Spawned.of, Launcher.rank]))
    | choosing =>
      obtain ⟨rfl, rfl⟩ := hv.unchosen rfl
      refine .inl (.set hown hlaunch ?_)
      split <;> simp [Spawned.rank, Spawned.of, Launcher.rank, Completer.rank]
    | inStart =>
      exact .inl (.set hown hlaunch (by simp [Spawned.rank, Spawned.of, Launcher.rank]))
    | completing =>
      cases c with
      | waiting =>
        have he := hv.waiting rfl rfl
        rw [hv.completing rfl] at he
        cases he
      | releasing u =>
        exact .inl (.set hreleases hrelease (by
          simp [Spawned.rank, Spawned.of, Spawned.release, Launcher.hasRef, Completer.hasRef,
            Completer.rank]))
      | returned =>
        exact .inl (.set hown hlaunch (by simp [Spawned.rank, Spawned.of, Launcher.rank]))
    | releasing =>
      have hd := hv.pending.mpr rfl
      subst hd
      cases c with
      | waiting | releasing u | returned =>
        exact .inl (.set hown hlaunch (by
          simp [Spawned.rank, Spawned.of, Spawned.release, Launcher.hasRef, Completer.hasRef,
            Completer.rank, Launcher.rank, Teardown.rank]))
    | returned =>
      cases c with
      | waiting =>
        have hd := hv.pending.mpr rfl
        subst hd
        cases hv.waiting rfl rfl
        exact .inr (.inl ⟨rfl, rfl, rfl⟩)
      | releasing u =>
        have hd := hv.pending.mpr rfl
        subst hd
        exact .inl (.set hreleases hrelease (by
          simp [Spawned.rank, Spawned.of, Spawned.release, Launcher.hasRef, Completer.hasRef,
            Completer.rank, Teardown.rank]))
      | returned =>
        cases d with
        | pending => cases hv.pending.mp rfl
        | destroy u | deallocate u =>
          exact .inl (.set htears htear (by simp [Spawned.rank, Spawned.of, Teardown.rank]))
        | disassociate u =>
          exact .inl (.disassociate h hk htears htear (by
            simp [Spawned.rank, Spawned.of, Teardown.rank]))
        | ended =>
          exact .inr (.inr ⟨rfl, rfl, by simp [Spawned.of, Teardown.dropped]⟩)

theorem Spawned.Ok.rank_le {w : Spawned n} (h : w.Ok) : w.rank ≤ 10 := by
  cases h with
  | @intro t engaged l c d hv =>
    have hl : l.rank ≤ 6 := by cases l <;> decide
    have hd : d.rank ≤ 4 := by cases d <;> simp [Teardown.rank]
    simp only [Spawned.rank, Spawned.of]
    cases c with
    | waiting | returned =>
      simp only [Completer.rank]
      omega
    | releasing u =>
      have hch : l.chosen = true := by
        by_contra hch
        cases hv.early (by simpa using hch)
      have hl : l.rank ≤ 2 := by cases l <;> first | decide | cases hch
      simp only [Completer.rank]
      omega

/-- The state finishes with its own steps. -/
def Finishes (s : State n) (k : AssociationId) (m : ℕ) : Prop :=
  ∃ ls : List (Label n), ls.length ≤ m ∧ (∀ l ∈ ls, l.own k = true) ∧
    ∃ s' w', run step s ls = some s' ∧ s'.clients k = some (.spawned w') ∧
      (w'.Waiting ∨ w'.Freed ∧ k ∉ s'.scope.live)

theorem Inv.finishes {m : ℕ} (h : Inv s) {w : Spawned n} (hk : s.clients k = some (.spawned w))
    (hm : w.rank ≤ m) : Finishes s k m := by
  -- each step of its own lowers the rank of the state
  induction m using Nat.strong_induction_on generalizing s w with
  | h m ih =>
    rcases h.moves hk with ⟨l, hl, s', w', hs, hk', hr⟩ | hw | hf
    · obtain ⟨ls, hlen, hown, s'', w'', hrun, hk'', hend⟩ :=
        ih (m - 1) (by omega) (h.step hs) hk' (by omega)
      refine ⟨l :: ls, ?_, ?_, s'', w'', ?_, hk'', hend⟩
      · rw [List.length_cons]
        omega
      · intro l' hl'
        rcases List.mem_cons.mp hl' with rfl | hl'
        · exact hl
        · exact hown l' hl'
      · simp only [run, hs, Option.bind_some]
        exact hrun
    · exact ⟨[], Nat.zero_le m, fun _ hl => absurd hl List.not_mem_nil, s, w, rfl, hk, .inl hw⟩
    · refine ⟨[], Nat.zero_le m, fun _ hl => absurd hl List.not_mem_nil, s, w, rfl, hk,
        .inr ⟨hf, fun hlive => ?_⟩⟩
      have hh := (h.held k _ hk).mpr hlive
      rw [show (Client.spawned w).holds = w.holds from rfl, hf.2.2] at hh
      cases hh

end Clients

end CCForge.CountingScope
