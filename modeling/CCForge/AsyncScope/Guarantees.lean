import CCForge.AsyncScope.Invariants

/-!
# What the scope guarantees

The invariant holds in every reachable state, for any number of spawns that are
refused, fail, complete inline or on other threads and signal repeatedly, while the
scope is closed, stopped and waited for.
-/

namespace CCForge.AsyncScope

variable {s s' : State} {id : SpawnId} {x : Spawn} {l : Label}

/-! ## Counting -/

/-- The successful calls of `try_acquire` whose `complete` has not run. -/
def State.unmatched (s : State) : List SpawnId :=
  s.acquired.filter fun id => id ∉ s.published.map Prod.fst

theorem Inv.published_sub (h : Inv s) : s.published.map Prod.fst ⊆ s.acquired := by
  intro id hm
  exact (h.acquired id).mpr (Spawn.isAcquired_of_isPublished ((h.published id).mp hm))

/-- Taking a sublist's members out of a list without duplicates. -/
theorem length_filter_notMem {α : Type} [DecidableEq α] {l m : List α} (hl : l.Nodup)
    (hm : m.Nodup) (hsub : m ⊆ l) : (l.filter fun a => a ∉ m).length + m.length = l.length := by
  have hperm : (l.filter fun a => a ∈ m).Perm m := by
    rw [List.perm_ext_iff_of_nodup (hl.filter _) hm]
    intro a
    simp only [List.mem_filter, decide_eq_true_eq]
    exact ⟨fun h => h.2, fun h => ⟨hsub h, h⟩⟩
  have hsplit := List.length_eq_length_filter_add (l := l) fun a => decide (a ∈ m)
  rw [hperm.length_eq] at hsplit
  simp only [decide_not]
  omega

theorem Inv.active_eq (h : Inv s) : s.shared.active = s.unmatched.length := by
  have hlen := length_filter_notMem h.acquiredOnce h.publishedOnce h.published_sub
  have hactive := h.active
  rw [List.length_map] at hlen
  unfold State.unmatched
  omega

theorem Inv.idle_iff (h : Inv s) :
    s.shared.Idle ↔ ∀ id ∈ s.acquired, (s.spawns id).isPublished = true := by
  unfold Shared.Idle
  rw [h.active_eq, List.length_eq_zero_iff]
  unfold State.unmatched
  rw [List.filter_eq_nil_iff]
  apply forall₂_congr
  intro id _
  rw [← h.published id]
  simp

/-! ## Stages -/

namespace Spawn

/-- The call of `start_impl` has returned. -/
def startReturned (x : Spawn) : Bool :=
  match x.starter with
  | .after _ => true
  | _ => false

/-- The node was made. -/
def wasMade (x : Spawn) : Bool :=
  match x.starter with
  | .constructed | .starting | .after _ => true
  | _ => false

theorem Fits.of_isDestroyed (h : x.Fits) (hd : x.isDestroyed = true) :
    x.startReturned = true ∧ x.completed = true ∧ x.alive = false := by
  obtain ⟨starter, completer, alive, refs, completed, completionError, outcome⟩ := x
  cases starter with
  | after tail =>
    cases tail <;> cases completer with
    | after tail => cases tail <;> simp_all [Fits, isDestroyed, startReturned]
    | _ => simp_all [Fits, isDestroyed]
  | _ =>
    cases completer with
    | after tail => cases tail <;> simp_all [Fits, isDestroyed]
    | _ => simp_all [isDestroyed]

theorem Fits.of_isPublished (h : x.Fits) (hp : x.isPublished = true) (hm : x.wasMade = true) :
    x.isDestroyed = true := by
  obtain ⟨starter, completer, alive, refs, completed, completionError, outcome⟩ := x
  cases starter with
  | after tail =>
    cases tail <;> cases completer with
    | after tail => cases tail <;> simp_all [isPublished, isDestroyed]
    | _ => simp_all [isPublished]
  | _ => simp_all [isPublished, wasMade]

/-- An owner has still to drop its reference or to destroy the node. -/
def Pending (x : Spawn) : Prop :=
  (∃ error, x.completer = .claimed error) ∨ ∃ side, x.tail side = some .destroying

theorem Fits.destroyed_or_pending (h : x.Fits) (hs : x.startReturned = true)
    (hc : x.completed = true) : x.isDestroyed = true ∨ x.Pending := by
  obtain ⟨starter, completer, alive, refs, completed, completionError, outcome⟩ := x
  cases starter with
  | after tail =>
    cases completer with
    | idle => cases tail <;> simp_all [Fits]
    | claimed error => exact .inr (.inl ⟨error, rfl⟩)
    | after tail' =>
      cases tail with
      | destroying => exact .inr (.inr ⟨.starter, rfl⟩)
      | publishing error => exact .inl rfl
      | returned =>
        cases tail' with
        | destroying => exact .inr (.inr ⟨.completer, rfl⟩)
        | publishing error => exact .inl rfl
        | returned => exact .inl rfl
  | _ => cases hs

end Spawn

/-! ## What stays -/

/-- What no step takes back. -/
structure Keeps (s s' : State) : Prop where
  published : s.published <+: s'.published
  closed : s.shared.closed = true → s'.shared.closed = true ∧ s'.acquired = s.acquired

theorem Keeps.same (hp : s'.published = s.published) (hsh : s'.shared = s.shared)
    (ha : s'.acquired = s.acquired) : Keeps s s' := by
  refine ⟨hp ▸ List.prefix_rfl, ?_⟩
  intro hc
  rw [hsh]
  exact ⟨hc, ha⟩

theorem Keeps.use (h : Keeps s s') (id : SpawnId) : Keeps s (s.use id s') := by
  unfold State.use
  split_ifs
  · exact h
  · exact .same rfl rfl rfl

theorem keeps_publish (id : SpawnId) (error : Option Error) (x : Spawn) :
    Keeps s (s.publish id error x) := by
  refine ⟨List.prefix_append _ _, ?_⟩
  intro hc
  refine ⟨?_, rfl⟩
  show (s.shared.complete error).closed = true
  rw [Shared.complete_closed, hc]

theorem keeps_step (hs : step s l = some s') : Keeps s s' := by
  cases l with
  | tryAcquire id =>
    simp only [step, Option.ite_none_right_eq_some, Shared.tryAcquire] at hs
    obtain ⟨-, hs⟩ := hs
    by_cases hc : s.shared.closed = true
    · rw [if_pos hc] at hs
      cases hs
      exact .same rfl rfl rfl
    · rw [if_neg hc] at hs
      cases hs
      exact ⟨List.prefix_rfl, fun h => absurd h hc⟩
  | construct id failure =>
    simp only [step, Option.ite_none_right_eq_some] at hs
    cases failure <;> cases hs.2 <;> exact .same rfl rfl rfl
  | fail id =>
    simp only [step] at hs
    split at hs
    · cases hs
      exact keeps_publish _ _ _
    · cases hs
  | start id =>
    simp only [step, Option.ite_none_right_eq_some, Option.some.injEq] at hs
    rw [← hs.2]
    apply Keeps.use
    exact .same rfl rfl rfl
  | startReturns id =>
    simp only [step, Option.ite_none_right_eq_some, Option.some.injEq] at hs
    rw [← hs.2]
    apply Keeps.use
    exact .same rfl rfl rfl
  | signal id signal =>
    simp only [step, Option.ite_none_right_eq_some] at hs
    obtain ⟨-, hs⟩ := hs
    split_ifs at hs <;> cases hs <;> exact .same rfl rfl rfl
  | complete id =>
    simp only [step] at hs
    split at hs
    · cases hs
      apply Keeps.use
      exact .same rfl rfl rfl
    · cases hs
  | destroySelf id side =>
    simp only [step, Option.ite_none_right_eq_some, Option.some.injEq] at hs
    rw [← hs.2]
    apply Keeps.use
    exact .same rfl rfl rfl
  | publish id side =>
    simp only [step] at hs
    split at hs
    · cases hs
      exact keeps_publish _ _ _
    · cases hs
  | close =>
    cases hs
    exact ⟨List.prefix_rfl, fun _ => ⟨rfl, rfl⟩⟩
  | requestStop =>
    cases hs
    exact .same rfl rfl rfl
  | wait =>
    simp only [step, Option.ite_none_right_eq_some, Option.some.injEq] at hs
    obtain ⟨-, rfl⟩ := hs
    exact .same rfl rfl rfl

theorem keeps_run {ls : List Label} (hrun : run step s ls = some s') : Keeps s s' := by
  refine run_preserves (P := Keeps s) ?_ (.same rfl rfl rfl) hrun
  intro u a v hu hs
  have hk := keeps_step hs
  refine ⟨hu.published.trans hk.published, ?_⟩
  intro hc
  obtain ⟨hc₁, ha₁⟩ := hu.closed hc
  obtain ⟨hc₂, ha₂⟩ := hk.closed hc₁
  exact ⟨hc₂, ha₂.trans ha₁⟩

theorem firstError_run (h : Inv s) {ls : List Label} (hrun : run step s ls = some s') {e : Error}
    (he : s.shared.firstError = some e) : s'.shared.firstError = some e := by
  have h' : Inv s' := run_preserves (fun _ _ _ hi hs => inv_step hi hs) h hrun
  obtain ⟨more, hmore⟩ := (keeps_run hrun).published
  rw [h.firstError] at he
  rw [h'.firstError, ← hmore, List.findSome?_append, he]
  rfl

/-! ## The guarantee -/

structure Accounts (s : State) : Prop where
  /-- The count is that of the unmatched acquisitions. -/
  active : s.shared.active = s.unmatched.length
  matched : (s.published.map Prod.fst).Nodup ∧ s.published.map Prod.fst ⊆ s.acquired
  /-- Every call of `complete` that is about to run finds the count positive. -/
  guarded : ∀ id, ((∃ error, (s.spawns id).starter = .failed error) ∨
    ∃ side error, (s.spawns id).tail side = some (.publishing error)) → 0 < s.shared.active
  destroyedOnce : s.destroyed.Nodup
  destroyedAfter : ∀ id ∈ s.destroyed,
    (s.spawns id).startReturned = true ∧ (s.spawns id).completed = true
  /-- The owner that destroys the node comes after the return and the completion. -/
  destroysAfter : ∀ id side, (s.spawns id).tail side = some .destroying →
    id ∉ s.destroyed ∧ (s.spawns id).startReturned = true ∧ (s.spawns id).completed = true
  destroyed : ∀ id, (s.spawns id).startReturned = true → (s.spawns id).completed = true →
    s.destroyed.count id = 1 ∨ (s.spawns id).Pending
  /-- No node is used after its destruction. -/
  fault : s.fault = false
  idle : s.shared.Idle → ∀ id ∈ s.acquired, (s.spawns id).wasMade = true → id ∈ s.destroyed
  returned : s.shared.Idle ↔ ∀ id ∈ s.acquired, (s.spawns id).isPublished = true
  closed : s.shared.closed = true → ∀ ls s', run step s ls = some s' → s'.acquired = s.acquired
  firstError : s.shared.firstError = s.published.findSome? Prod.snd
  outcome : ∀ id error, (id, error) ∈ s.published → (s.spawns id).outcome = some error
  unchanged : ∀ e, s.shared.firstError = some e → ∀ ls s', run step s ls = some s' →
    s'.shared.firstError = some e

theorem Inv.destroying (h : Inv s) {side : Side} (ht : (s.spawns id).tail side = some .destroying) :
    id ∉ s.destroyed ∧ (s.spawns id).startReturned = true ∧ (s.spawns id).completed = true := by
  obtain ⟨-, hd, -, -, hfit, hd', -, -⟩ := (h.fits id).destroying ht
  obtain ⟨hs, hc, -⟩ := hfit.of_isDestroyed hd'
  refine ⟨?_, ?_, ?_⟩
  · rw [h.destroyed, hd]
    simp
  · cases side with
    | starter =>
      revert ht
      unfold Spawn.tail Spawn.startReturned
      cases (s.spawns id).starter <;> simp
    | completer => exact hs
  · cases side <;> exact hc

/-- The scope counts the spawned operations, destroys each node once and after its last use,
and keeps the first error. -/
theorem scope_accounts (h : Reachable step Initial s) : Accounts s := by
  have hi := reachable_inv h
  refine ⟨hi.active_eq, ⟨hi.publishedOnce, hi.published_sub⟩, ?_, hi.destroyedOnce, ?_,
    fun id side ht => hi.destroying ht, ?_, hi.fault, ?_, hi.idle_iff, ?_, hi.firstError,
    hi.outcome, fun e he ls s' hrun => firstError_run hi hrun he⟩
  · rintro id (⟨error, hf⟩ | ⟨side, error, ht⟩)
    · refine hi.active_pos (?_ : (s.spawns id).isAcquired = true) ?_
      · simp [Spawn.isAcquired, hf]
      · simp [Spawn.isPublished, hf]
    · obtain ⟨-, hp, ha, -⟩ := (hi.fits id).publishing ht
      exact hi.active_pos ha hp
  · intro id hm
    obtain ⟨hs, hc, -⟩ := (hi.fits id).of_isDestroyed ((hi.destroyed id).mp hm)
    exact ⟨hs, hc⟩
  · intro id hs hc
    rcases (hi.fits id).destroyed_or_pending hs hc with hd | hp
    · exact .inl (List.count_eq_one_of_mem hi.destroyedOnce ((hi.destroyed id).mpr hd))
    · exact .inr hp
  · intro hidle id hm hmade
    have hp := hi.idle_iff.mp hidle id hm
    exact (hi.destroyed id).mpr ((hi.fits id).of_isPublished hp hmade)
  · intro hc ls s' hrun
    exact ((keeps_run hrun).closed hc).2

/-- One operation completes inside of its start and signals twice, one completes with an error
on another thread while its start is still under way, one spawn fails, and one is refused. -/
theorem scope_accounts_mixed : ∃ s : State, Reachable step Initial s ∧ s.acquired = [0, 1, 2] ∧
    s.destroyed = [0, 1] ∧ s.published = [(2, some 7), (0, none), (1, some 5)] ∧
    s.shared = ⟨0, true, some 7⟩ ∧ Accounts s := by
  obtain ⟨s, hs, h1, h2, h3, h4⟩ : ∃ s : State,
      run step {} [.tryAcquire 0, .construct 0 none, .start 0, .signal 0 .value,
        .signal 0 (.error (some 9)), .complete 0, .startReturns 0, .tryAcquire 1,
        .construct 1 none, .tryAcquire 2, .construct 2 (some 7), .fail 2, .start 1,
        .signal 1 (.error (some 5)), .startReturns 1, .destroySelf 0 .starter, .close,
        .tryAcquire 3, .publish 0 .starter, .complete 1, .destroySelf 1 .completer,
        .publish 1 .completer, .wait] = some s ∧
      s.acquired = [0, 1, 2] ∧ s.destroyed = [0, 1] ∧
      s.published = [(2, some 7), (0, none), (1, some 5)] ∧ s.shared = ⟨0, true, some 7⟩ :=
    ⟨_, rfl, rfl, rfl, rfl, rfl⟩
  have hr : Reachable step Initial s := ⟨_, rfl, _, hs⟩
  exact ⟨s, hr, h1, h2, h3, h4, scope_accounts hr⟩

end CCForge.AsyncScope
