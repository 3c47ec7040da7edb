import CCForge.CountingScope.Invariants

/-!
# What a counting scope guarantees

The invariant holds in every reachable state of a scope of either kind: for any
associations, joins and closes on any threads, in any order of the locked sections.
-/

namespace CCForge.CountingScope

variable {n : ℕ} {s s' : State n} {t : Fin n}

/-! ## Scopes that grant nothing -/

theorem Shared.tryAssociate_of_rejects {s : Shared} (h : s.state.rejectsAssociation = true) :
    s.tryAssociate = (s, false) := by
  rcases s.tryAssociate_cases with he | ⟨hr, -, -⟩
  · exact he
  · rw [h] at hr
    cases hr

/-- A scope that rejects associations goes on rejecting them. -/
theorem rejects_step (hi : Inv s) (h : s.shared.state.rejectsAssociation = true) {l : Label n}
    (hs : step s l = some s') :
    s'.shared.state.rejectsAssociation = true ∧ s'.granted = s.granted := by
  cases l with
  | tryAssociate a =>
    simp only [step, Option.ite_none_right_eq_some, Option.some.injEq] at hs
    obtain ⟨-, rfl⟩ := hs
    rw [State.tryAssociate, Shared.tryAssociate_of_rejects h]
    exact ⟨h, rfl⟩
  | release t a =>
    simp only [step, Option.ite_none_right_eq_some, Option.some.injEq] at hs
    obtain ⟨ha, rfl⟩ := hs
    unfold State.release
    rcases hi.ok.decrement_cases (List.length_pos_of_mem ha) with ⟨-, -, he⟩ | ⟨he, -⟩
    · rw [he]
      exact ⟨rfl, rfl⟩
    · rw [he]
      exact ⟨h, rfl⟩
  | startJoin t j =>
    simp only [step, Option.ite_none_right_eq_some, Option.some.injEq] at hs
    obtain ⟨-, rfl⟩ := hs
    unfold State.startJoin
    dsimp only
    rcases hi.ok.startJoin_cases j with ⟨-, he⟩ | ⟨-, state, -, -, hrej, he⟩
    · rw [he]
      exact ⟨rfl, rfl⟩
    · rw [he]
      exact ⟨hrej.trans h, rfl⟩
  | close =>
    cases hs
    refine ⟨?_, rfl⟩
    simp only [Shared.close]
    cases s.shared.state <;> rfl
  | requestStop =>
    simp only [step, Option.ite_none_right_eq_some, Option.some.injEq] at hs
    obtain ⟨-, rfl⟩ := hs
    exact ⟨h, rfl⟩
  | complete t =>
    simp only [step, State.complete] at hs
    split at hs
    · cases hs
    · cases hs
      exact ⟨h, rfl⟩
    · cases hs
      exact ⟨h, rfl⟩
  | scheduler j sig =>
    simp only [step, Option.ite_none_right_eq_some, Option.some.injEq] at hs
    obtain ⟨-, rfl⟩ := hs
    exact ⟨h, rfl⟩

theorem rejects_run (hi : Inv s) (h : s.shared.state.rejectsAssociation = true)
    {ls : List (Label n)} (hs : run step s ls = some s') : s'.granted = s.granted := by
  have hp := run_preserves
    (P := fun u : State n => Inv u ∧ u.shared.state.rejectsAssociation = true ∧
      u.granted = s.granted) ?_ ⟨hi, h, rfl⟩ hs
  · exact hp.2.2
  · rintro u a v ⟨hu, hr, hg⟩ hv
    obtain ⟨hr', hg'⟩ := rejects_step hu hr hv
    exact ⟨inv_step hu hv, hr', hg'.trans hg⟩

theorem joined_step (hi : Inv s) (h : s.shared.state = .joined) {l : Label n}
    (hs : step s l = some s') : s'.shared.state = .joined := by
  have hz := hi.ok.joined h
  cases l with
  | tryAssociate a =>
    simp only [step, Option.ite_none_right_eq_some, Option.some.injEq] at hs
    obtain ⟨-, rfl⟩ := hs
    rw [State.tryAssociate, Shared.tryAssociate_of_rejects (by rw [h]; rfl)]
    exact h
  | release t a =>
    simp only [step, Option.ite_none_right_eq_some, Option.some.injEq] at hs
    have hpos := List.length_pos_of_mem hs.1
    omega
  | startJoin t j =>
    simp only [step, Option.ite_none_right_eq_some, Option.some.injEq] at hs
    obtain ⟨-, rfl⟩ := hs
    unfold State.startJoin
    dsimp only
    rcases hi.ok.startJoin_cases j with ⟨-, he⟩ | ⟨hpos, -⟩
    · rw [he]
      rfl
    · omega
  | close =>
    cases hs
    simp only [Shared.close, h]
    rfl
  | requestStop =>
    simp only [step, Option.ite_none_right_eq_some, Option.some.injEq] at hs
    obtain ⟨-, rfl⟩ := hs
    exact h
  | complete t =>
    simp only [step, State.complete] at hs
    split at hs
    · cases hs
    · cases hs
      exact h
    · cases hs
      exact h
  | scheduler j sig =>
    simp only [step, Option.ite_none_right_eq_some, Option.some.injEq] at hs
    obtain ⟨-, rfl⟩ := hs
    exact h

theorem joined_run (hi : Inv s) (h : s.shared.state = .joined) {ls : List (Label n)}
    (hs : run step s ls = some s') : s'.shared.state = .joined := by
  have hp := run_preserves (P := fun u : State n => Inv u ∧ u.shared.state = .joined)
    (fun u a v hu hv => ⟨inv_step hu.1 hv, joined_step hu.1 hu.2 hv⟩) ⟨hi, h⟩ hs
  exact hp.2

/-! ## Progress of the joins -/

/-- The steps that are due on a thread or a scheduler. -/
def Label.due : Label n → Bool
  | .complete _ => true
  | .scheduler _ _ => true
  | _ => false

/-- A bound on the steps that are due. -/
def State.work (s : State n) : ℕ := 2 * total List.length s.ready + s.scheduled.length

theorem work_step {l : Label n} (hl : l.due = true) (hs : step s l = some s') :
    s'.work < s.work := by
  cases l with
  | complete t =>
    have hu := fun rest => total_update List.length s.ready t rest
    simp only [step, State.complete] at hs
    split at hs
    · cases hs
    · next j rest hr =>
      cases hs
      have hrest := hu rest
      rw [hr, List.length_cons] at hrest
      simp only [State.work]
      omega
    · next j rest hr =>
      cases hs
      have hrest := hu rest
      rw [hr, List.length_cons] at hrest
      simp only [State.work, List.length_append, List.length_singleton]
      omega
  | scheduler j sig =>
    simp only [step, Option.ite_none_right_eq_some, Option.some.injEq] at hs
    obtain ⟨hj, rfl⟩ := hs
    have hpos := List.length_pos_of_mem hj
    simp only [State.work, List.length_erase_of_mem hj]
    omega
  | _ => cases hl

/-- No thread and no scheduler has a join to complete. -/
def Settled (s : State n) : Prop := ∀ l : Label n, l.due = true → step s l = none

theorem Settled.ready (h : Settled s) (t : Fin n) : s.ready t = [] := by
  have ht : s.complete t = none := h (.complete t) rfl
  unfold State.complete at ht
  cases hr : s.ready t with
  | nil => rfl
  | cons c rest => cases c <;> simp [hr] at ht

theorem Settled.scheduled (h : Settled s) : s.scheduled = [] := by
  apply List.eq_nil_iff_forall_not_mem.mpr
  intro j hj
  have hs := h (.scheduler j .value) rfl
  simp [step, hj] at hs

theorem Inv.settled (h : Inv s) (hs : Settled s) :
    (s.completed.map Prod.fst ++ s.shared.joiners).Perm s.started := by
  have hz : total joinsOf s.ready = 0 := total_of_zero fun t => by rw [hs.ready t]; rfl
  rw [← Multiset.coe_eq_coe, h.joins, hz, hs.scheduled, ← Multiset.coe_add, add_comm]
  simp

theorem Inv.joiners_nil (h : Inv s) (hz : s.live = []) : s.shared.joiners = [] := by
  by_contra hj
  have hpos := h.ok.joining (h.ok.joiners hj)
  simp [hz] at hpos

theorem Inv.completed_nodup (h : Inv s) :
    (s.completed.map Prod.fst).Nodup ∧ ∀ j ∈ s.completed.map Prod.fst, j ∈ s.started := by
  have hn : (s.started : Multiset JoinId).Nodup := Multiset.coe_nodup.mpr h.nodup
  rw [h.joins] at hn
  refine ⟨Multiset.coe_nodup.mp (Multiset.nodup_add.mp hn).2.1, ?_⟩
  intro j hj
  rw [← Multiset.mem_coe, h.joins]
  exact Multiset.mem_add.mpr (.inr hj)

/-! ## The guarantee -/

structure JoinsAtZero (s : State n) : Prop where
  count : s.shared.count = s.live.length
  /-- The count never wraps around: it stays a number of `std::size_t`, and there is an
  association whenever it is lowered. -/
  noWrap : s.live.length ≤ maxAssociations ∧
    ∀ t a s', step s (.release t a) = some s' → 0 < s.shared.count
  joiners : s.shared.joiners ≠ [] → s.shared.state.isJoining = true ∧ 0 < s.shared.count
  once : (s.completed.map Prod.fst).Nodup ∧ ∀ j ∈ s.completed.map Prod.fst, j ∈ s.started
  zero : ∀ j sig count, (j, sig, count) ∈ s.completed → count = 0
  /-- A join that a thread or a scheduler has in hand found the count zero, and so it stays. -/
  inHand : (∃ t, s.ready t ≠ []) ∨ s.scheduled ≠ [] → s.shared.count = 0
  /-- The completions come to an end, after which only registered joins are left, and
  none at all when there is no association. -/
  bounded : ∀ ls s', (∀ l ∈ ls, Label.due l = true) → run step s ls = some s' →
    ls.length ≤ s.work
  settled : Settled s → (s.completed.map Prod.fst ++ s.shared.joiners).Perm s.started ∧
    (s.live = [] → (s.completed.map Prod.fst).Perm s.started)
  joined : s.shared.state = .joined → ∀ ls s', run step s ls = some s' →
    s'.shared.state = .joined ∧ s'.granted = s.granted
  closed : s.closeCalled = true → ∀ ls s', run step s ls = some s' → s'.granted = s.granted
  /-- `__scope_after_join_start` does not terminate the program. -/
  noTerminate : s.terminated = false ∧ ∀ j, s.shared.startJoin j ≠ none

/-- Joins of a counting scope complete once, when and only when no association is left. -/
theorem scope_joins_at_zero (h : Reachable step Initial s) : JoinsAtZero s := by
  have hi := reachable_inv h
  refine ⟨hi.ok.count, ⟨hi.ok.bound, ?_⟩, ?_, hi.completed_nodup, ?_, ?_, ?_, ?_, ?_, ?_,
    hi.terminated, ?_⟩
  · intro t a s' hs
    simp only [step, Option.ite_none_right_eq_some] at hs
    rw [hi.ok.count]
    exact List.length_pos_of_mem hs.1
  · intro hj
    have hjoin := hi.ok.joiners hj
    refine ⟨hjoin, ?_⟩
    rw [hi.ok.count]
    exact hi.ok.joining hjoin
  · intro j sig count hm
    exact hi.zero _ hm
  · intro hh
    rw [hi.ok.count]
    rcases hh with ⟨t, ht⟩ | hs
    · exact hi.ok.joined (hi.ready t ht)
    · exact hi.ok.joined (hi.scheduled hs)
  · intro ls s' hls hrun
    have hle := run_length_le (P := fun _ => True) (Q := fun l => Label.due l = true)
      (fun s a t _ ha hs => ⟨trivial, work_step ha hs⟩) trivial hls hrun
    omega
  · intro hs
    refine ⟨hi.settled hs, ?_⟩
    intro hl
    have hp := hi.settled hs
    rwa [hi.joiners_nil hl, List.append_nil] at hp
  · intro hj ls s' hs
    exact ⟨joined_run hi hj hs, rejects_run hi (by rw [hj]; rfl) hs⟩
  · intro hc ls s' hs
    exact rejects_run hi (hi.closed hc) hs
  · intro j hn
    rcases hi.ok.startJoin_cases j with ⟨-, he⟩ | ⟨-, state, -, -, -, he⟩
    · rw [he] at hn
      cases hn
    · rw [he] at hn
      cases hn

/-- Two joins start while association 0 is alive and association 1 is still granted; the
last release hands both to their schedulers, and a third join completes at once. -/
theorem scope_joins_at_zero_race : ∃ s : State 2, Reachable step Initial s ∧
    s.granted = [0, 1] ∧ s.live = [] ∧ s.shared.state = .joined ∧
    s.completed = [(7, .value, 0), (6, .stopped, 0), (5, .value, 0)] ∧ JoinsAtZero s := by
  obtain ⟨s, hs, h1, h2, h3, h4⟩ : ∃ s : State 2,
      run step { kind := .counting } [.tryAssociate 0, .startJoin 1 5, .tryAssociate 1,
        .startJoin 0 6, .release 0 0, .close, .tryAssociate 2, .requestStop, .release 1 1,
        .startJoin 0 7, .complete 1, .complete 0, .scheduler 6 .stopped, .complete 1,
        .scheduler 5 .value] = some s ∧
      s.granted = [0, 1] ∧ s.live = [] ∧ s.shared.state = .joined ∧
      s.completed = [(7, .value, 0), (6, .stopped, 0), (5, .value, 0)] :=
    ⟨_, rfl, rfl, rfl, rfl, rfl⟩
  have hr : Reachable step Initial s := ⟨_, ⟨.counting, rfl⟩, _, hs⟩
  exact ⟨s, hr, h1, h2, h3, h4, scope_joins_at_zero hr⟩

end CCForge.CountingScope
