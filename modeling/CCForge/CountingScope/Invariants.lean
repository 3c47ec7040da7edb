import CCForge.CountingScope.Model

/-!
# The invariant of a counting scope

A scope that joins has associations to wait for, and one that has joined has none.
The started joins are registered, in the hands of a thread, with a scheduler or
completed, and none of the last three exists before the scope has joined.
-/

namespace CCForge.CountingScope

/-! ## The locked sections -/

namespace Shared

/-- The data of a scope with `live` engaged associations. -/
structure Ok (s : Shared) (live : ℕ) : Prop where
  count : s.count = live
  bound : live ≤ maxAssociations
  unused : s.state = .unused ∨ s.state = .unusedAndClosed → live = 0
  joining : s.state.isJoining = true → 0 < live
  joined : s.state = .joined → live = 0
  joiners : s.joiners ≠ [] → s.state.isJoining = true

variable {s : Shared} {live : ℕ}

theorem fetchAdd_eq {count : ℕ} (h : count < maxAssociations) : fetchAdd count = count + 1 := by
  unfold fetchAdd
  apply Nat.mod_eq_of_lt
  unfold maxAssociations at h
  omega

theorem fetchSub_eq {count : ℕ} (h₀ : 0 < count) (h : count ≤ maxAssociations) :
    fetchSub count = count - 1 := by
  unfold fetchSub
  unfold maxAssociations at h
  have hs : 0 < sizeModulus := by decide
  have he : count + (sizeModulus - 1) = (count - 1) + sizeModulus := by omega
  rw [he, Nat.add_mod_right]
  apply Nat.mod_eq_of_lt
  omega

theorem tryAssociate_cases (s : Shared) :
    s.tryAssociate = (s, false) ∨
    (s.state.rejectsAssociation = false ∧ s.count < maxAssociations ∧
      s.tryAssociate = ({ s with state := s.state.afterAssociation, count := s.count + 1 }, true)) := by
  unfold Shared.tryAssociate scopeTryAssociate
  by_cases h : s.count ≥ maxAssociations ∨ s.state.rejectsAssociation
  · simp [h]
  · rw [not_or] at h
    have hlt : s.count < maxAssociations := by omega
    refine .inr ⟨by simpa using h.2, hlt, ?_⟩
    simp [h.1, h.2, fetchAdd_eq hlt]

theorem Ok.tryAssociate (h : s.Ok live) (hr : s.state.rejectsAssociation = false)
    (hc : s.count < maxAssociations) :
    ({ s with state := s.state.afterAssociation, count := s.count + 1 } : Shared).Ok (live + 1) := by
  have hlive := h.count
  refine ⟨by simp [hlive], by omega, ?_, fun _ => by omega, ?_, ?_⟩
  · intro hs
    revert hr hs
    cases s.state <;> simp [ScopeState.rejectsAssociation, ScopeState.afterAssociation]
  · intro hs
    revert hr hs
    cases s.state <;> simp [ScopeState.rejectsAssociation, ScopeState.afterAssociation]
  · intro hj
    have hjoin := h.joiners hj
    revert hjoin
    cases s.state <;> simp [ScopeState.isJoining, ScopeState.afterAssociation]

theorem Ok.close (h : s.Ok live) : s.close.Ok live := by
  have hjoining : s.state.afterClose.isJoining = s.state.isJoining := by
    cases s.state <;> rfl
  refine ⟨h.count, h.bound, ?_, ?_, ?_, ?_⟩
  · intro hs
    apply h.unused
    revert hs
    simp only [Shared.close]
    cases s.state <;> simp [ScopeState.afterClose]
  · intro hs
    apply h.joining
    rwa [Shared.close, hjoining] at hs
  · intro hs
    apply h.joined
    revert hs
    simp only [Shared.close]
    cases s.state <;> simp [ScopeState.afterClose]
  · intro hj
    rw [Shared.close, hjoining]
    exact h.joiners hj

/-- What `__decrement` does with the last association and with any other. -/
theorem Ok.decrement_cases (h : s.Ok live) (hpos : 0 < live) :
    (s.state.isJoining = true ∧ live = 1 ∧
      s.decrement = ({ s with state := .joined, count := 0, joiners := [] }, s.joiners)) ∨
    (s.decrement = ({ s with count := live - 1 }, []) ∧
      (s.state.isJoining = true → 0 < live - 1)) := by
  have hsub : fetchSub s.count = live - 1 := by
    rw [h.count, fetchSub_eq hpos h.bound]
  unfold Shared.decrement
  by_cases hlast : s.count = 1 ∧ s.state.isJoining = true
  · have hone : live = 1 := by rw [← h.count, hlast.1]
    refine .inl ⟨hlast.2, hone, ?_⟩
    rw [if_pos hlast, hsub, hone]
  · refine .inr ⟨?_, ?_⟩
    · simp [hlast, hsub]
    · intro hj
      have hne : s.count ≠ 1 := fun he => hlast ⟨he, hj⟩
      rw [h.count] at hne
      omega

theorem Ok.decrement (h : s.Ok live) (hpos : 0 < live) : s.decrement.1.Ok (live - 1) := by
  rcases h.decrement_cases hpos with ⟨hj, hone, he⟩ | ⟨he, hj⟩
  · rw [he]
    refine ⟨by simp [hone], by omega, by simp, ?_, fun _ => by omega, by simp⟩
    intro hs
    cases hs
  · rw [he]
    have hbound := h.bound
    refine ⟨rfl, by omega, ?_, hj, ?_, h.joiners⟩
    · intro hs
      have hz := h.unused hs
      omega
    · intro hs
      have hz := h.joined hs
      omega

/-- What `__start_join` does; the branch that terminates is not taken. -/
theorem Ok.startJoin_cases (h : s.Ok live) (j : JoinId) :
    (live = 0 ∧ s.startJoin j = some ({ s with state := .joined }, true)) ∨
    (0 < live ∧ ∃ state, state.isJoining = true ∧ s.state ≠ .joined ∧
      state.rejectsAssociation = s.state.rejectsAssociation ∧
      s.startJoin j = some ({ s with state := state, joiners := j :: s.joiners }, false)) := by
  unfold Shared.startJoin
  by_cases hz : s.count = 0
  · refine .inl ⟨by rw [← h.count, hz], ?_⟩
    rw [if_pos hz]
  · have hpos : 0 < live := by rw [← h.count]; omega
    refine .inr ⟨hpos, ?_⟩
    rw [if_neg hz]
    have hunused := h.unused
    have hjoined := h.joined
    cases hs : s.state with
    | unused => exact absurd (hunused (.inl hs)) (by omega)
    | unusedAndClosed => exact absurd (hunused (.inr hs)) (by omega)
    | joined => exact absurd (hjoined hs) (by omega)
    | «open» => exact ⟨.openAndJoining, rfl, nofun, rfl, rfl⟩
    | openAndJoining => exact ⟨.openAndJoining, rfl, nofun, rfl, rfl⟩
    | closed => exact ⟨.closedAndJoining, rfl, nofun, rfl, rfl⟩
    | closedAndJoining => exact ⟨.closedAndJoining, rfl, nofun, rfl, rfl⟩

theorem Ok.join_now (h : s.Ok live) (hz : live = 0) :
    ({ s with state := .joined } : Shared).Ok live ∧ s.joiners = [] := by
  have hnil : s.joiners = [] := by
    by_contra hj
    have hpos := h.joining (h.joiners hj)
    omega
  refine ⟨⟨h.count, h.bound, by simp, ?_, fun _ => hz, fun hj => absurd hnil hj⟩, hnil⟩
  intro hs
  cases hs

theorem Ok.join_later (h : s.Ok live) (hpos : 0 < live) {state : ScopeState} (j : JoinId)
    (hs : state.isJoining = true) :
    ({ s with state := state, joiners := j :: s.joiners } : Shared).Ok live := by
  refine ⟨h.count, h.bound, ?_, fun _ => hpos, ?_, fun _ => hs⟩
  · rintro (he | he)
    · rw [show state = .unused from he] at hs
      cases hs
    · rw [show state = .unusedAndClosed from he] at hs
      cases hs
  · intro he
    rw [show state = .joined from he] at hs
    cases hs

end Shared

/-! ## The whole system -/

variable {n : ℕ} {s s' : State n} {t : Fin n}

/-- The joins that a thread has still to complete. -/
def joinsOf (l : List Completion) : Multiset JoinId := (l.map Completion.join : List JoinId)

theorem joinsOf_append (l m : List Completion) : joinsOf (l ++ m) = joinsOf l + joinsOf m := by
  simp [joinsOf]

structure Inv (s : State n) : Prop where
  ok : s.shared.Ok s.live.length
  terminated : s.terminated = false
  live : s.live.Nodup
  granted : ∀ a ∈ s.live, a ∈ s.granted
  nodup : s.started.Nodup
  joins : (s.started : Multiset JoinId) =
    s.shared.joiners + total joinsOf s.ready + s.scheduled + (s.completed.map Prod.fst : List JoinId)
  ready : ∀ t, s.ready t ≠ [] → s.shared.state = .joined
  scheduled : s.scheduled ≠ [] → s.shared.state = .joined
  zero : ∀ c ∈ s.completed, c.2.2 = 0
  closed : s.closeCalled = true → s.shared.state.rejectsAssociation = true

theorem inv_initial (kind : Kind) : Inv ({ kind := kind } : State n) := by
  refine ⟨⟨rfl, Nat.zero_le _, ?_, ?_, ?_, ?_⟩, rfl, List.nodup_nil, ?_, List.nodup_nil, ?_, ?_, ?_,
    ?_, ?_⟩
  · exact fun _ => rfl
  · intro hs
    cases hs
  · exact fun _ => rfl
  · exact fun hj => absurd rfl hj
  · intro a ha
    cases ha
  · have hz : total joinsOf ({ kind := kind } : State n).ready = 0 := total_of_zero fun _ => rfl
    rw [hz]
    rfl
  · exact fun t ht => absurd rfl ht
  · exact fun hs => absurd rfl hs
  · intro c hc
    cases hc
  · intro hc
    cases hc

theorem Inv.tryAssociate (h : Inv s) {a : AssociationId} (ha : a ∉ s.granted) :
    Inv (s.tryAssociate a) := by
  unfold State.tryAssociate
  rcases s.shared.tryAssociate_cases with he | ⟨hr, hc, he⟩
  · rw [he]
    exact h
  · rw [he]
    have hjoined : s.shared.state ≠ .joined := by
      intro hs
      rw [hs] at hr
      cases hr
    have hnone : ∀ {P : Prop}, s.shared.state = .joined → P := fun hs => absurd hs hjoined
    refine ⟨?_, h.terminated, ?_, ?_, h.nodup, h.joins, fun t ht => hnone (h.ready t ht),
      fun hs => hnone (h.scheduled hs), h.zero, ?_⟩
    · rw [List.length_append, List.length_singleton]
      exact h.ok.tryAssociate hr hc
    · refine List.nodup_append.mpr ⟨h.live, List.nodup_singleton a, ?_⟩
      intro x hx y hy hxy
      rw [List.mem_singleton.mp hy] at hxy
      exact ha (h.granted a (hxy ▸ hx))
    · intro x hx
      rcases List.mem_append.mp hx with hx | hx
      · exact List.mem_append_left _ (h.granted x hx)
      · exact List.mem_append_right _ hx
    · intro hcl
      have hrej := h.closed hcl
      rw [hr] at hrej
      cases hrej

theorem Inv.release (h : Inv s) {a : AssociationId} (ha : a ∈ s.live) : Inv (s.release t a) := by
  have hpos : 0 < s.live.length := List.length_pos_of_mem ha
  have hok := h.ok.decrement hpos
  have hlen : (s.live.erase a).length = s.live.length - 1 := List.length_erase_of_mem ha
  have hnot : s.shared.state ≠ .joined := by
    intro hs
    have hz := h.ok.joined hs
    omega
  have hidle : ∀ t, s.ready t = [] := by
    intro t
    by_contra ht
    exact hnot (h.ready t ht)
  have hsched : s.scheduled = [] := by
    by_contra hs
    exact hnot (h.scheduled hs)
  have hzero : total joinsOf s.ready = 0 := total_of_zero fun t => by rw [hidle t]; rfl
  have hjoins := h.joins
  rw [hzero, hsched] at hjoins
  unfold State.release
  rcases h.ok.decrement_cases hpos with ⟨hj, hone, he⟩ | ⟨he, hj⟩
  · rw [he] at hok ⊢
    have hjoined : (Function.update s.ready t (s.shared.joiners.map Completion.schedule ++ s.ready t))
        = Function.update s.ready t (s.shared.joiners.map Completion.schedule) := by
      rw [hidle t, List.append_nil]
    have hjs : joinsOf (s.shared.joiners.map Completion.schedule) = s.shared.joiners := by
      simp [joinsOf, Function.comp_def, Completion.join]
    refine ⟨?_, h.terminated, h.live.erase a, fun x hx => h.granted x (List.mem_of_mem_erase hx),
      h.nodup, ?_, fun _ _ => rfl, fun _ => rfl, h.zero, fun _ => rfl⟩
    · simp only [State.setReady]
      rw [hlen]
      exact hok
    · simp only [State.setReady]
      rw [hjoined, total_update_of_zero (by rw [hidle t]; rfl), hzero, hjs, hsched, hjoins]
      simp
  · rw [he] at hok ⊢
    have hsame : Function.update s.ready t (([] : List JoinId).map Completion.schedule ++ s.ready t) =
        s.ready := by
      rw [List.map_nil, List.nil_append, Function.update_eq_self]
    refine ⟨?_, h.terminated, h.live.erase a, fun x hx => h.granted x (List.mem_of_mem_erase hx),
      h.nodup, ?_, ?_, h.scheduled, h.zero, h.closed⟩
    · simp only [State.setReady]
      rw [hlen]
      exact hok
    · simp only [State.setReady]
      rw [hsame]
      exact h.joins
    · simp only [State.setReady]
      rw [hsame]
      exact h.ready

theorem Inv.startJoin (h : Inv s) {j : JoinId} (hj : j ∉ s.started) : Inv (s.startJoin t j) := by
  have hnodup : (s.started ++ [j]).Nodup := by
    refine List.nodup_append.mpr ⟨h.nodup, List.nodup_singleton j, ?_⟩
    intro x hx y hy hxy
    rw [List.mem_singleton.mp hy] at hxy
    exact hj (hxy ▸ hx)
  unfold State.startJoin
  dsimp only
  rcases h.ok.startJoin_cases j with ⟨hz, he⟩ | ⟨hpos, state, hstate, hne, hrej, he⟩
  · obtain ⟨hok, -⟩ := h.ok.join_now hz
    rw [he]
    refine ⟨hok, h.terminated, h.live, h.granted, hnodup, ?_, fun _ _ => rfl, fun _ => rfl, h.zero,
      fun _ => rfl⟩
    have hu := total_update joinsOf s.ready t ([.setValue j] ++ s.ready t)
    rw [joinsOf_append, add_comm (joinsOf [_]), ← add_assoc] at hu
    have htotal : total joinsOf (Function.update s.ready t ([.setValue j] ++ s.ready t)) =
        total joinsOf s.ready + {j} := by
      apply add_right_cancel (b := joinsOf (s.ready t))
      rw [hu, add_assoc, add_assoc, add_comm (joinsOf (s.ready t))]
      rfl
    simp only [State.setReady]
    rw [htotal, ← Multiset.coe_add, h.joins]
    simp only [Multiset.coe_singleton]
    abel
  · rw [he]
    refine ⟨h.ok.join_later hpos j hstate, h.terminated, h.live, h.granted, hnodup, ?_,
      fun t ht => absurd (h.ready t ht) hne, fun hs => absurd (h.scheduled hs) hne, h.zero, ?_⟩
    · have hcons : ((j :: s.shared.joiners : List JoinId) : Multiset JoinId) =
          {j} + s.shared.joiners := rfl
      rw [hcons, ← Multiset.coe_add, h.joins]
      simp only [Multiset.coe_singleton]
      abel
    · intro hcl
      rw [show ({ s.shared with state := state, joiners := j :: s.shared.joiners } : Shared).state =
        state from rfl, hrej]
      exact h.closed hcl

/-- A thread passes on the first of the joins that it has to complete. -/
theorem Inv.takes (h : Inv s) {c : Completion} {rest : List Completion} {scheduled : List JoinId}
    {completed : List (JoinId × Signal × ℕ)} (hr : s.ready t = c :: rest)
    (hj : ((scheduled : List JoinId) : Multiset JoinId) + (completed.map Prod.fst : List JoinId) =
      {c.join} + (s.scheduled + (s.completed.map Prod.fst : List JoinId)))
    (hz : ∀ c ∈ completed, c.2.2 = 0) :
    Inv { s with
      ready := Function.update s.ready t rest, scheduled := scheduled, completed := completed } := by
  have hjoined : s.shared.state = .joined := h.ready t (by rw [hr]; nofun)
  refine ⟨h.ok, h.terminated, h.live, h.granted, h.nodup, ?_, fun _ _ => hjoined, fun _ => hjoined,
    hz, h.closed⟩
  have hu := total_update joinsOf s.ready t rest
  have hcons : joinsOf (c :: rest) = {c.join} + joinsOf rest := by
    rw [← List.singleton_append, joinsOf_append]
    rfl
  rw [hr, hcons, ← add_assoc] at hu
  have htotal := add_right_cancel hu
  rw [h.joins, ← htotal, add_assoc, add_assoc, add_assoc, add_assoc, hj]
  abel

theorem Inv.complete (h : Inv s) (hs : s.complete t = some s') : Inv s' := by
  unfold State.complete at hs
  split at hs
  · cases hs
  · next j rest hr =>
    cases hs
    have hjoined : s.shared.state = .joined := h.ready t (by rw [hr]; nofun)
    refine h.takes hr ?_ ?_
    · rw [List.map_append, ← Multiset.coe_add]
      simp only [List.map_cons, List.map_nil, Multiset.coe_singleton, Completion.join]
      abel
    · intro c hc
      rcases List.mem_append.mp hc with hc | hc
      · exact h.zero c hc
      · rw [List.mem_singleton.mp hc]
        exact h.ok.count.trans (h.ok.joined hjoined)
  · next j rest hr =>
    cases hs
    refine h.takes hr ?_ h.zero
    rw [← Multiset.coe_add]
    simp only [Multiset.coe_singleton, Completion.join]
    abel

theorem Inv.scheduler (h : Inv s) {j : JoinId} (sig : Signal) (hj : j ∈ s.scheduled) :
    Inv { s with
      scheduled := s.scheduled.erase j
      completed := s.completed ++ [(j, sig, s.shared.count)] } := by
  have hjoined : s.shared.state = .joined := h.scheduled (List.ne_nil_of_mem hj)
  refine ⟨h.ok, h.terminated, h.live, h.granted, h.nodup, ?_, h.ready, fun _ => hjoined, ?_, h.closed⟩
  · have hcons : (s.scheduled : Multiset JoinId) = {j} + (s.scheduled.erase j : List JoinId) := by
      rw [Multiset.singleton_add]
      exact Multiset.coe_eq_coe.mpr (List.perm_cons_erase hj)
    rw [h.joins, hcons, List.map_append, ← Multiset.coe_add]
    simp only [List.map_cons, List.map_nil, Multiset.coe_singleton]
    abel
  · intro c hc
    rcases List.mem_append.mp hc with hc | hc
    · exact h.zero c hc
    · rw [List.mem_singleton.mp hc]
      exact h.ok.count.trans (h.ok.joined hjoined)

theorem Inv.close (h : Inv s) : Inv { s with shared := s.shared.close, closeCalled := true } := by
  have hjoined : s.shared.state = .joined → s.shared.close.state = .joined := by
    intro hs
    rw [Shared.close, hs]
    rfl
  refine ⟨h.ok.close, h.terminated, h.live, h.granted, h.nodup, h.joins,
    fun t ht => hjoined (h.ready t ht), fun hs => hjoined (h.scheduled hs), h.zero, fun _ => ?_⟩
  simp only [Shared.close]
  cases s.shared.state <;> rfl

theorem inv_step (h : Inv s) {l : Label n} (hs : step s l = some s') : Inv s' := by
  cases l with
  | tryAssociate a =>
    simp only [step, Option.ite_none_right_eq_some, Option.some.injEq] at hs
    obtain ⟨ha, rfl⟩ := hs
    exact h.tryAssociate ha
  | release t a =>
    simp only [step, Option.ite_none_right_eq_some, Option.some.injEq] at hs
    obtain ⟨ha, rfl⟩ := hs
    exact h.release ha
  | startJoin t j =>
    simp only [step, Option.ite_none_right_eq_some, Option.some.injEq] at hs
    obtain ⟨hj, rfl⟩ := hs
    exact h.startJoin hj
  | close =>
    cases hs
    exact h.close
  | requestStop =>
    simp only [step, Option.ite_none_right_eq_some, Option.some.injEq] at hs
    obtain ⟨-, rfl⟩ := hs
    exact { h with }
  | complete t => exact h.complete hs
  | scheduler j sig =>
    simp only [step, Option.ite_none_right_eq_some, Option.some.injEq] at hs
    obtain ⟨hj, rfl⟩ := hs
    exact h.scheduler sig hj

theorem reachable_inv (h : Reachable step Initial s) : Inv s := by
  refine h.preserves (P := Inv) ?_ fun _ _ _ hi hs => inv_step hi hs
  rintro _ ⟨kind, rfl⟩
  exact inv_initial kind

end CCForge.CountingScope
