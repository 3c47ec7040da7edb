import CCForge.Lib.Updates
import CCForge.Senders.System

/-!
# What operations complete with

However the operations interleave and wherever stops are requested, an operation
completes with one of the outcomes of its sender, on the execution resource that the
outcome names and with one of the completion signatures that were computed for it. The
steps that are left are bounded, and none is left only when every operation completed.
-/

namespace CCForge.Senders

open Outcomes (bound tick)

variable {α : Type} [Decay α]

/-! ## One operation, one step later -/

/-- What the next step of a running operation leaves can follow it. -/
theorem Op.follows_next {op : Op α} {a : Agent} {k : Control α} {st : Status α}
    (hst : op.status = .running a k)
    (h : tick ({ op with status := st } : Op α).remaining = k.next.outcomes a.resource) :
    op.Follows { op with status := st } := by
  refine ⟨rfl, rfl, fun r hr => ?_⟩
  simp only [Op.remaining, hst]
  rw [← k.outcomes_next a.resource, ← h]
  exact hr

theorem Op.follows_running {op : Op α} {a : Agent} {k k' : Control α}
    (hst : op.status = .running a k) (hk : k.next = .run k') :
    op.Follows { op with status := .running a k' } := by
  apply Op.follows_next hst
  rw [hk]
  rfl

theorem Op.follows_parked {op : Op α} {a : Agent} {k : Control α} {i : LoopId} {env : Env}
    {κ : List (Frame α)} (hst : op.status = .running a k) (hk : k.next = .park i env κ) :
    op.Follows { op with status := .parked i env κ } := by
  apply Op.follows_next hst
  rw [hk]
  rfl

theorem Op.follows_completed {op : Op α} {a : Agent} {k : Control α} {c : Completion α}
    (hst : op.status = .running a k) (hk : k.next = .deliver c) :
    op.Follows { op with status := .completed c a.resource } := by
  apply Op.follows_next hst
  rw [hk]
  rfl

theorem State.taskCompletion_mem (s : State α) (env : Env) (i : LoopId) :
    (1, some (s.taskCompletion env, Resource.loop i)) ∈ resume i env := by
  have hvalue : (1, some (Completion.value [], Resource.loop i)) ∈
      (resume i env : Outcomes (Result α)) :=
    List.mem_append.mpr (.inl (Outcomes.mem_tick.mpr ⟨0, rfl, List.mem_singleton_self _⟩))
  -- without a token the task cannot be stopped
  have hstopped : env.getStopToken ≠ .never → (1, some (Completion.stopped, Resource.loop i)) ∈
      (resume i env : Outcomes (Result α)) := by
    intro hn
    refine List.mem_append.mpr (.inr ?_)
    rw [if_neg hn]
    exact Outcomes.mem_tick.mpr ⟨0, rfl, List.mem_singleton_self _⟩
  unfold taskCompletion
  split
  · exact hvalue
  · rename_i hsrc
    split
    · exact hstopped (by rw [hsrc]; rintro ⟨⟩)
    · exact hvalue
  · rename_i hsrc
    split
    · exact hstopped (by rw [hsrc]; rintro ⟨⟩)
    · exact hvalue
  · exact hvalue

theorem Op.follows_task {s : State α} {op : Op α} {i : LoopId} {caller : ℕ} {env : Env}
    {κ : List (Frame α)} (hst : op.status = .parked i env κ) :
    op.Follows { op with
      status := .running (.worker i caller) (.complete (s.taskCompletion env) κ) } := by
  refine ⟨rfl, rfl, ?_⟩
  rintro ⟨n, x⟩ hr
  obtain ⟨k, rfl, hk⟩ := Outcomes.mem_tick.mp hr
  simp only [Op.remaining, hst]
  exact Outcomes.mem_bind.mpr ⟨1, k, by omega, _, s.taskCompletion_mem env i, hk⟩

/-! ## The state -/

namespace State

/-- The loop in whose queue the operation waits. -/
def loopOf (s : State α) (n : ℕ) : Option LoopId := s.ops[n]?.bind fun op => op.status.loop

/-- The queue of a loop holds the operations that wait for it, once each, and every
operation agrees with the outcomes of its sender. -/
structure Inv (s : State α) : Prop where
  faithful : ∀ op ∈ s.ops, op.Faithful
  queued : ∀ i n, n ∈ s.queue i ↔ s.loopOf n = some i
  nodup : ∀ i, (s.queue i).Nodup

variable {s t : State α} {n : ℕ} {op : Op α} {st : Status α}

theorem faithful_setStatus (h : s.Inv) (hop : s.ops[n]? = some op)
    (hf : op.Follows { op with status := st }) :
    ∀ op' ∈ (s.setStatus n op st).ops, op'.Faithful := by
  intro op' hm
  rcases List.mem_or_eq_of_mem_set hm with hm | rfl
  · exact h.faithful op' hm
  · exact hf.faithful (h.faithful op (List.mem_of_getElem? hop))

theorem loopOf_setStatus (hop : s.ops[n]? = some op) (m : ℕ) :
    (s.setStatus n op st).loopOf m = if m = n then st.loop else s.loopOf m := by
  have hn : n < s.ops.length := (List.getElem?_eq_some_iff.mp hop).1
  by_cases hm : m = n
  · subst hm
    simp [loopOf, setStatus, hn]
  · simp [loopOf, setStatus, hm, List.getElem?_set_ne (Ne.symm hm)]

@[simp] theorem loopOf_setQueue (i : LoopId) (q : List ℕ) (m : ℕ) :
    (s.setQueue i q).loopOf m = s.loopOf m := rfl

@[simp] theorem queue_setQueue (i : LoopId) (q : List ℕ) :
    (s.setQueue i q).queue = Function.update s.queue i q := rfl

theorem loopOf_of_status (hop : s.ops[n]? = some op) : s.loopOf n = op.status.loop := by
  simp [loopOf, hop]

/-- A step of an operation that neither waited nor waits now. -/
theorem Inv.setStatus (h : s.Inv) (hop : s.ops[n]? = some op) (hloop : op.status.loop = none)
    (hst : st.loop = none) (hf : op.Follows { op with status := st }) :
    (s.setStatus n op st).Inv where
  faithful := faithful_setStatus h hop hf
  queued i m := by
    rw [loopOf_setStatus hop]
    show m ∈ s.queue i ↔ _
    rw [h.queued i m]
    by_cases hm : m = n
    · rw [if_pos hm, hm, loopOf_of_status hop, hloop, hst]
    · rw [if_neg hm]
  nodup := h.nodup

theorem Inv.park (h : s.Inv) {i : LoopId} {env : Env} {κ : List (Frame α)}
    (hop : s.ops[n]? = some op) (hloop : op.status.loop = none)
    (hf : op.Follows { op with status := .parked i env κ }) :
    ((s.setStatus n op (.parked i env κ)).setQueue i (s.queue i ++ [n])).Inv := by
  -- it ran, so it is in no queue
  have hn : ∀ j, n ∉ s.queue j := by
    intro j hj
    have := (h.queued j n).mp hj
    rw [loopOf_of_status hop, hloop] at this
    cases this
  refine ⟨faithful_setStatus h hop hf, fun j m => ?_, fun j => ?_⟩
  · rw [loopOf_setQueue, loopOf_setStatus hop]
    by_cases hj : j = i
    · subst hj
      rw [queue_setQueue, Function.update_self, List.mem_append, List.mem_singleton, h.queued j m]
      by_cases hm : m = n
      · simp [hm, Status.loop]
      · simp [hm]
    · rw [queue_setQueue, Function.update_of_ne hj]
      show m ∈ s.queue j ↔ _
      rw [h.queued j m]
      by_cases hm : m = n
      · rw [if_pos hm, hm, loopOf_of_status hop, hloop]
        simp [Status.loop, Ne.symm hj]
      · rw [if_neg hm]
  · exact forall_update (P := fun _ (q : List ℕ) => q.Nodup) (fun j _ => h.nodup j)
      (nodup_snoc (h.nodup i) (hn i)) j

theorem Inv.runTask (h : s.Inv) {i : LoopId} {rest : List ℕ} (hop : s.ops[n]? = some op)
    (hq : s.queue i = n :: rest) (hst : st.loop = none)
    (hf : op.Follows { op with status := st }) :
    ((s.setStatus n op st).setQueue i rest).Inv := by
  have hnd := h.nodup i
  rw [hq] at hnd
  -- the head of the queue leaves it and occurs there no more
  have hni : s.loopOf n = some i := (h.queued i n).mp (hq ▸ List.mem_cons_self)
  refine ⟨faithful_setStatus h hop hf, fun j m => ?_, fun j => ?_⟩
  · rw [loopOf_setQueue, loopOf_setStatus hop]
    by_cases hj : j = i
    · subst hj
      rw [queue_setQueue, Function.update_self]
      by_cases hm : m = n
      · rw [if_pos hm, hst, hm]
        simp [(List.nodup_cons.mp hnd).1]
      · rw [if_neg hm, ← h.queued j m, hq, List.mem_cons]
        simp [hm]
    · rw [queue_setQueue, Function.update_of_ne hj]
      show m ∈ s.queue j ↔ _
      rw [h.queued j m]
      by_cases hm : m = n
      · rw [if_pos hm, hm, hni, hst]
        simp [Ne.symm hj]
      · rw [if_neg hm]
  · exact forall_update (P := fun _ (q : List ℕ) => q.Nodup) (fun j _ => h.nodup j)
      (List.nodup_cons.mp hnd).2 j

theorem Inv.step {l : Label α} (h : s.Inv) (hs : s.step l = some t) : t.Inv := by
  cases stepped_of_step hs with
  | @start a c hidle =>
    refine ⟨fun op hm => ?_, fun i n => ?_, h.nodup⟩
    · rcases List.mem_append.mp hm with hm | hm
      · exact h.faithful op hm
      · cases List.mem_singleton.mp hm
        exact ⟨0, fun r hr => by rwa [Outcomes.delay_zero] at hr⟩
    · show n ∈ s.queue i ↔ _
      rw [h.queued i n]
      simp only [loopOf]
      -- the new operation is the last one and in no queue
      rcases Nat.lt_trichotomy n s.ops.length with hn | hn | hn
      · rw [List.getElem?_append_left hn]
      · subst hn
        simp [Status.loop]
      · rw [List.getElem?_eq_none (Nat.le_of_lt hn), List.getElem?_eq_none (by
          rw [List.length_append, List.length_singleton]
          omega)]
  | advance hop hst hk =>
    exact h.setStatus hop (by rw [hst]; rfl) rfl (Op.follows_running hst hk)
  | park hop hst hk => exact h.park hop (by rw [hst]; rfl) (Op.follows_parked hst hk)
  | deliver hop hst hk =>
    exact h.setStatus hop (by rw [hst]; rfl) rfl (Op.follows_completed hst hk)
  | @runTask i caller n rest op j env κ hidle hq hop hst =>
    have hni : s.loopOf n = some i := (h.queued i n).mp (hq ▸ List.mem_cons_self)
    rw [loopOf_of_status hop, hst] at hni
    cases hni
    exact h.runTask hop hq rfl (Op.follows_task hst)
  | requestStop source => exact ⟨h.faithful, h.queued, h.nodup⟩

theorem inv_of_reachable (h : Reachable step IsInitial s) : s.Inv := by
  refine h.preserves ?_ fun s l t => Inv.step
  rintro _ rfl
  exact ⟨by rintro op ⟨⟩, fun i n => by simp [loopOf], fun i => List.nodup_nil⟩

/-! ## Progress -/

/-- A bound on the steps that are left. -/
def work (s : State α) : ℕ := (s.ops.map fun op => bound op.remaining).sum

theorem work_setStatus (hop : s.ops[n]? = some op) (hf : op.Follows { op with status := st }) :
    (s.setStatus n op st).work < s.work := by
  have hlt := hf.bound_lt
  have hset : ∀ (ops : List (Op α)) (n : ℕ), ops[n]? = some op →
      ((ops.set n { op with status := st }).map fun op => bound op.remaining).sum <
        (ops.map fun op => bound op.remaining).sum := by
    intro ops
    induction ops with
    | nil => simp
    | cons op' ops ih =>
      intro n hop
      cases n with
      | zero =>
        cases hop
        simpa using hlt
      | succ n =>
        have := ih n hop
        simpa using this
  exact hset s.ops n hop

theorem work_step {l : Label α} (h : s.Inv) (hl : l.Works) (hs : s.step l = some t) :
    t.work < s.work := by
  cases stepped_of_step hs with
  | start c hidle => cases hl
  | advance hop hst hk => exact work_setStatus hop (Op.follows_running hst hk)
  | park hop hst hk => exact work_setStatus hop (Op.follows_parked hst hk)
  | deliver hop hst hk => exact work_setStatus hop (Op.follows_completed hst hk)
  | @runTask i caller n rest op j env κ hidle hq hop hst =>
    have hni : s.loopOf n = some i := (h.queued i n).mp (hq ▸ List.mem_cons_self)
    rw [loopOf_of_status hop, hst] at hni
    cases hni
    exact work_setStatus hop (Op.follows_task hst)
  | requestStop source => cases hl

/-- A running operation is never stuck. -/
theorem Inv.advances (h : s.Inv) {a : Agent} {k : Control α} (hop : s.ops[n]? = some op)
    (hst : op.status = .running a k) : (s.step (.advance n)).isSome := by
  have hcov := (h.faithful op (List.mem_of_getElem? hop)).covered
  simp only [State.step, hop, Option.bind_some, hst]
  cases hk : k.next with
  | run k' => rfl
  | park i env κ => rfl
  | deliver c => rfl
  | stuck =>
    -- stuck would be an outcome without a completion, which no signature covers
    have hout := k.outcomes_next a.resource
    rw [hk] at hout
    simp only [Op.remaining, hst] at hcov
    rw [← hout] at hcov
    obtain ⟨x, hx, _⟩ := hcov 1 none (List.mem_singleton_self _)
    cases hx

/-- A loop with a task in its queue can run one, unless its caller executes an operation. -/
theorem Inv.runTask_or_busy (h : s.Inv) {i : LoopId} (hn : s.loopOf n = some i) :
    (s.step (.runTask i 0)).isSome ∨
      ∃ (m : ℕ) (op : Op α) (k : Control α),
        s.ops[m]? = some op ∧ op.status = .running (.worker i 0) k := by
  cases hb : s.busy (.worker i 0) with
  | true =>
    obtain ⟨op', hm, ha⟩ := List.any_eq_true.mp hb
    obtain ⟨m, hm⟩ := List.mem_iff_getElem?.mp hm
    cases hs' : op'.status with
    | running a k =>
      simp only [hs', Status.agent, beq_iff_eq, Option.some.injEq] at ha
      subst ha
      exact .inr ⟨m, op', k, hm, hs'⟩
    | parked j env κ => simp [hs', Status.agent] at ha
    | completed c b => simp [hs', Status.agent] at ha
  | false =>
    -- the head of the queue is parked there, so the loop can run it
    refine .inl ?_
    have hmem : n ∈ s.queue i := (h.queued i n).mpr hn
    cases hq : s.queue i with
    | nil => simp [hq] at hmem
    | cons m rest =>
      have hm : s.loopOf m = some i := (h.queued i m).mp (hq ▸ List.mem_cons_self)
      obtain ⟨op', hop', hl⟩ := Option.bind_eq_some_iff.mp hm
      cases hs' : op'.status with
      | parked j env κ =>
        simp [State.step, hb, hq, hop', State.runTask, hs']
      | running a k =>
        rw [hs'] at hl
        cases hl
      | completed c b =>
        rw [hs'] at hl
        cases hl

theorem Inv.progress (h : s.Inv) (hop : s.ops[n]? = some op)
    (hst : op.status.isCompleted = false) : ∃ l : Label α, l.Works ∧ (s.step l).isSome := by
  cases hs : op.status with
  | running a k => exact ⟨.advance n, trivial, h.advances hop hs⟩
  | completed c b =>
    rw [hs] at hst
    cases hst
  | parked i env κ =>
    rcases h.runTask_or_busy (by rw [loopOf_of_status hop, hs]; rfl) with hr | ⟨m, op', k, hm, hk⟩
    · exact ⟨.runTask i 0, trivial, hr⟩
    · exact ⟨.advance m, trivial, h.advances hm hk⟩

end State

/-! ## Main results -/

variable {s : State α} {op : Op α} {c : Completion α} {b : Resource}

/-- An operation completes with an outcome of its sender, on the resource of the outcome,
and with one of the sender's completion signatures. -/
theorem operations_refine_outcomes (h : Reachable State.step State.IsInitial s) (hop : op ∈ s.ops)
    (hc : op.status = .completed c b) :
    (∃ n, (n, some (c, b)) ∈ op.connection.sender.outcomes op.connection.env op.origin) ∧
      c.sig ∈ op.connection.sender.completionSignatures op.connection.env := by
  have hf := (State.inv_of_reachable h).faithful op hop
  have hrem : (0, some (c, b)) ∈ op.remaining := by
    simp only [Op.remaining, hc]
    exact List.mem_singleton_self _
  constructor
  · obtain ⟨taken, ht⟩ := hf
    have htotal := ht (taken, some (c, b)) (Outcomes.mem_delay.mpr ⟨0, rfl, hrem⟩)
    obtain ⟨j, k, _, x, hx, hk⟩ := Outcomes.mem_bind_some.mp htotal
    obtain ⟨_, _, hk⟩ := Outcomes.mem_tick.mp hk
    cases List.mem_singleton.mp hk
    exact ⟨j, hx⟩
  · obtain ⟨x, hx, hs⟩ := hf.covered 0 _ hrem
    cases hx
    exact hs

/-- A stop is requested while the task of the schedule operation waits. -/
theorem operations_refine_outcomes_stopped : ∃ (s : State ℕ) (op : Op ℕ),
    Reachable State.step State.IsInitial s ∧ op ∈ s.ops ∧
    op.status = .completed .stopped (.loop 0) ∧
    (∃ n, (n, some (.stopped, .loop 0)) ∈
      op.connection.sender.outcomes op.connection.env op.origin) ∧
    (Completion.stopped : Completion ℕ).sig ∈
      op.connection.sender.completionSignatures op.connection.env := by
  obtain ⟨s, op, hs, hop, hst⟩ : ∃ s op, run State.step ({} : State ℕ)
      [.start (.thread 0) ⟨.startsOn (.loop 0) (.just [.object 0 5]),
          { stopToken := some (.inplace 3) }, trivial⟩,
        .advance 0, .advance 0, .requestStop 3, .runTask 0 0, .advance 0, .advance 0] = some s ∧
      s.ops[0]? = some op ∧ op.status = .completed .stopped (.loop 0) := ⟨_, _, rfl, rfl, rfl⟩
  have hr : Reachable State.step State.IsInitial s := ⟨_, rfl, _, hs⟩
  have hm := List.mem_of_getElem? hop
  exact ⟨s, op, hr, hm, hst, operations_refine_outcomes hr hm hst⟩

/-- The steps that bring operations forward cannot go on for ever, and when none of them
is possible every operation has completed. -/
theorem operations_all_complete (h : Reachable State.step State.IsInitial s) :
    (∀ labels t, (∀ l ∈ labels, l.Works) → run State.step s labels = some t →
      labels.length ≤ s.work) ∧
    ((∀ l : Label α, l.Works → s.step l = none) → ∀ op ∈ s.ops, op.status.isCompleted = true) := by
  have hinv := State.inv_of_reachable h
  constructor
  · intro labels t hl ht
    have := run_length_le (P := State.Inv) (Q := Label.Works) (μ := State.work)
      (fun s l t hs hl ht => ⟨hs.step ht, State.work_step hs hl ht⟩) hinv hl ht
    omega
  · intro hnone op hop
    obtain ⟨n, hn⟩ := List.mem_iff_getElem?.mp hop
    by_contra hc
    obtain ⟨l, hl, hs⟩ := hinv.progress hn (by simpa using hc)
    rw [hnone l hl] at hs
    cases hs

/-- Two operations on one loop, one of them parked and one running. -/
theorem operations_all_complete_two : ∃ s : State ℕ, Reachable State.step State.IsInitial s ∧
    s.queue 0 = [1] ∧ s.work = 6 ∧ ((∀ labels t, (∀ l ∈ labels, Label.Works l) →
      run State.step s labels = some t → labels.length ≤ s.work) ∧
    ((∀ l : Label ℕ, l.Works → s.step l = none) →
      ∀ op ∈ s.ops, op.status.isCompleted = true)) := by
  obtain ⟨s, hs, hq, hw⟩ : ∃ s, run State.step ({} : State ℕ)
      [.start (.thread 0) ⟨.startsOn (.loop 0) (.just [.object 0 5]), {}, trivial⟩,
        .start (.thread 1) ⟨.runLoop 0, {}, trivial⟩, .advance 0, .advance 0, .advance 1,
        .runTask 0 4] = some s ∧ s.queue 0 = [1] ∧ s.work = 6 := ⟨_, rfl, rfl, rfl⟩
  have hr : Reachable State.step State.IsInitial s := ⟨_, rfl, _, hs⟩
  exact ⟨s, hr, hq, hw, operations_all_complete hr⟩

end CCForge.Senders
