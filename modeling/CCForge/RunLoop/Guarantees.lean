import CCForge.RunLoop.Invariants

/-!
# What the run loop guarantees

The invariant holds in every reachable state: for any number of calls of `run`, any
threads that start operations, and operations that vanish or come back as soon as
their receiver has been called.
-/

namespace CCForge.RunLoop

variable {n : ℕ} {s s' : State n} {t : NodeId} {c : Fin n}

/-! ## Execution -/

theorem mem_unexecuted {k : ℕ} :
    k ∈ total Caller.unexecuted s.caller ↔ ∃ c t, s.caller c = .popped k t := by
  rw [mem_total]
  apply exists_congr
  intro c
  cases s.caller c with
  | popped j t => simp [Caller.unexecuted, eq_comm]
  | _ => simp [Caller.unexecuted]

theorem Inv.mem_popped (h : Inv s) (k : ℕ) : k < s.popped.length ↔
    k ∈ s.executed.map Prod.fst ∨ ∃ c t, s.caller c = .popped k t := by
  rw [← Multiset.mem_range, h.numbers, Multiset.mem_add, mem_unexecuted, Multiset.mem_coe]

theorem Inv.once (h : Inv s) : (s.executed.map Prod.fst).Nodup ∧
    ∀ c k t, s.caller c = .popped k t → k ∉ s.executed.map Prod.fst := by
  have hn := Multiset.nodup_range s.popped.length
  rw [h.numbers] at hn
  obtain ⟨he, -, hd⟩ := Multiset.nodup_add.mp hn
  refine ⟨Multiset.coe_nodup.mp he, ?_⟩
  intro c k t hc hm
  exact Multiset.disjoint_left.mp hd (Multiset.mem_coe.mpr hm) (mem_unexecuted.mpr ⟨c, t, hc⟩)

theorem Inv.pushed_at (h : Inv s) {k : ℕ} (hk : s.popped[k]? = some t) : s.pushed[k]? = some t := by
  rw [h.line, List.getElem?_append_left (List.getElem?_eq_some_iff.mp hk).1]
  exact hk

theorem Inv.head_none (h : Inv s) (hw : s.waiting = []) : s.head = none := by
  rw [h.chain.head, hw]
  rfl

/-! ## The count -/

/-- A call that has popped a node and not decremented the count for it. -/
def Caller.busy : Caller → Bool
  | .popped _ _ | .calling _ | .decrementing _ => true
  | _ => false

theorem card_undecremented (s : State n) : Multiset.card (total Caller.undecremented s.caller) =
    (Finset.univ.filter fun c => (s.caller c).busy = true).card := by
  apply card_total
  intro x
  cases x <;> rfl

theorem Inv.count_pos (h : Inv s) (hc : (s.caller c).busy = true) : 0 < s.taskCount := by
  have hpos : 0 < (Finset.univ.filter fun c => (s.caller c).busy = true).card :=
    Finset.card_pos.mpr ⟨c, by simpa using hc⟩
  rw [h.count, card_undecremented]
  omega

theorem undecremented_zero (hb : ∀ c, (s.caller c).busy = false) :
    total Caller.undecremented s.caller = 0 := by
  apply total_of_zero
  intro c
  have hc := hb c
  cases he : s.caller c <;> simp_all [Caller.busy, Caller.undecremented]

theorem Inv.count_eq (h : Inv s) (hb : ∀ c, (s.caller c).busy = false) :
    s.taskCount = s.waiting.length := by
  rw [h.count, undecremented_zero hb]
  rfl

/-! ## Returning from `run` -/

/-- Only a `__pop` that finds nothing leaves the loop. -/
theorem returns_step (h : Inv s) {l : Label n} (hs : step s l = some s')
    (hc : s.caller c ≠ .outside) (hc' : s'.caller c = .outside) :
    s.finishing = true ∧ s.waiting = [] ∧ s' = s.setCaller c .outside := by
  have hsame : s'.caller c ≠ s.caller c := fun he => hc (he.symm.trans hc')
  cases l with
  | construct t =>
    simp only [step, Option.ite_none_right_eq_some, Option.some.injEq] at hs
    obtain ⟨-, rfl⟩ := hs
    exact absurd rfl hsame
  | destroy t =>
    simp only [step, Option.ite_none_right_eq_some, Option.some.injEq] at hs
    obtain ⟨-, rfl⟩ := hs
    exact absurd rfl hsame
  | start t =>
    simp only [step, Option.ite_none_right_eq_some, Option.some.injEq] at hs
    obtain ⟨⟨ht, hf⟩, rfl⟩ := hs
    obtain ⟨heap, he, -⟩ := push_eq ht (h.tail_alive hf)
    rw [he] at hsame
    exact absurd rfl hsame
  | finish =>
    cases hs
    exact absurd rfl hsame
  | run d =>
    simp only [step, Option.ite_none_right_eq_some, Option.some.injEq] at hs
    obtain ⟨hd, rfl⟩ := hs
    by_cases hcd : c = d
    · subst hcd
      exact absurd hd hc
    · simp [Function.update_of_ne hcd] at hsame
  | advance d stopRequested =>
    by_cases hcd : c = d
    · subst hcd
      simp only [step, State.advance] at hs
      cases he : s.caller c with
      | outside => exact absurd he hc
      | popping =>
        simp only [he] at hs
        cases hw : s.waiting with
        | nil =>
          simp only [State.pop, h.head_none hw] at hs
          split_ifs at hs with hfin
          cases hs
          exact ⟨hfin, rfl, rfl⟩
        | cons t rest =>
          -- with a task in the queue the caller takes it and stays inside
          obtain ⟨node, hnode⟩ := Option.ne_none_iff_exists'.mp
            (h.alive t (.inl (by rw [hw]; exact List.mem_cons_self)))
          have hhead : s.head = some t := by rw [h.chain.head, hw]; rfl
          simp only [State.pop, hhead, hnode] at hs
          cases hs
          simp at hc'
      | popped k t =>
        simp only [he] at hs
        cases hs
        unfold State.execute at hc'
        split at hc'
        · exact absurd (he.symm.trans hc') (by rintro ⟨⟩)
        · simp at hc'
      | calling k =>
        simp only [he] at hs
        cases hs
        simp at hc'
      | decrementing k =>
        simp only [he] at hs
        cases hs
        simp at hc'
    · exfalso
      apply hsame
      simp only [step, State.advance, State.pop, State.execute] at hs
      -- a step of another caller does not move `c`
      have hupd : ∀ x, Function.update s.caller d x c = s.caller c :=
        fun x => Function.update_of_ne hcd _ _
      split at hs
      · cases hs
      · split at hs
        · split_ifs at hs
          cases hs
          exact hupd _
        · split at hs
          · cases hs
            rfl
          · cases hs
            split_ifs <;> exact hupd _
      · cases hs
        split
        · rfl
        · exact hupd _
      · cases hs
        exact hupd _
      · cases hs
        exact hupd _

/-! ## After the last return -/

def Label.isStart : Label n → Bool
  | .start _ => true
  | _ => false

/-- Nothing waits and no call of `run` has a node. -/
structure Drained (s : State n) : Prop where
  inv : Inv s
  waiting : s.waiting = []
  idle : ∀ c, (s.caller c).busy = false

theorem Drained.setCaller (h : Drained s) {x : Caller} (hx : x.busy = false)
    (hi : Inv (s.setCaller c x)) : Drained (s.setCaller c x) := by
  refine ⟨hi, h.waiting, ?_⟩
  intro d
  by_cases hd : d = c
  · subst hd
    simpa using hx
  · simpa [Function.update_of_ne hd] using h.idle d

theorem drained_step (h : Drained s) {l : Label n} (hl : l.isStart = false)
    (hs : step s l = some s') : Drained s' := by
  have hi := inv_step h.inv hs
  cases l with
  | construct t =>
    simp only [step, Option.ite_none_right_eq_some, Option.some.injEq] at hs
    obtain ⟨-, rfl⟩ := hs
    exact ⟨hi, h.waiting, h.idle⟩
  | destroy t =>
    simp only [step, Option.ite_none_right_eq_some, Option.some.injEq] at hs
    obtain ⟨-, rfl⟩ := hs
    exact ⟨hi, h.waiting, h.idle⟩
  | start t => cases hl
  | finish =>
    cases hs
    exact ⟨hi, h.waiting, h.idle⟩
  | run c =>
    simp only [step, Option.ite_none_right_eq_some, Option.some.injEq] at hs
    obtain ⟨-, rfl⟩ := hs
    exact h.setCaller rfl hi
  | advance c stopRequested =>
    have hidle := h.idle c
    simp only [step, State.advance] at hs
    cases he : s.caller c <;> simp_all [Caller.busy]
    simp only [State.pop, h.inv.head_none h.waiting] at hs
    split_ifs at hs
    cases hs
    exact h.setCaller rfl hi

theorem Drained.count (h : Drained s) : ¬s.DestructorTerminates := by
  unfold State.DestructorTerminates
  rw [h.inv.count_eq h.idle, h.waiting]
  simp

/-! ## The guarantee -/

structure ExecutesInOrder (s : State n) : Prop where
  /-- The links lead through the pushed and not yet popped nodes, in push order. -/
  linked : Chain s.next s.head s.waiting
  tail : s.tail = s.waiting.getLast?
  tailNull : s.tail = none ↔ s.waiting = []
  fifo : s.pushed = s.popped ++ s.waiting
  /-- The `k`-th pushed node is executed at most once, and only when it was popped. -/
  once : (s.executed.map Prod.fst).Nodup
  node : ∀ k t sig, (k, t, sig) ∈ s.executed → s.pushed[k]? = some t
  kept : ∀ k, k < s.popped.length ↔
    k ∈ s.executed.map Prod.fst ∨ ∃ c t, s.caller c = .popped k t
  notYet : ∀ c k t, s.caller c = .popped k t → k ∉ s.executed.map Prod.fst
  /-- No field of an operation that may have been destroyed was read or written. -/
  safe : s.fault = false
  count : s.taskCount = s.waiting.length +
    (Finset.univ.filter fun c => (s.caller c).busy = true).card
  noWrap : ∀ c k, s.caller c = .decrementing k → 0 < s.taskCount
  /-- A call of `run` with something to pop is never blocked. -/
  progress : ∀ c stopRequested, s.caller c ≠ .outside → s.waiting ≠ [] →
    ∃ s', step s (.advance c stopRequested) = some s'
  returns : ∀ l s' c, step s l = some s' → s.caller c ≠ .outside → s'.caller c = .outside →
    s'.finishing = true ∧ s'.head = none ∧ s'.waiting = []
  /-- Outside of all calls of `run`, everything popped has been executed. -/
  drained : (∀ c, s.caller c = .outside) →
    (s.executed.map Prod.fst).Perm (List.range s.popped.length) ∧
    (s.DestructorTerminates ↔ s.waiting ≠ [])
  /-- After the last call of `run` has returned, the destructor does not terminate the
  program unless another operation is started. -/
  destructor : ∀ l s' c, step s l = some s' → s.caller c ≠ .outside →
    (∀ d, s'.caller d = .outside) → ∀ ls s'', (∀ l ∈ ls, Label.isStart l = false) →
    run step s' ls = some s'' → ¬s''.DestructorTerminates

theorem Inv.progress (h : Inv s) {stopRequested : Bool} (hc : s.caller c ≠ .outside)
    (hw : s.waiting ≠ []) : ∃ s', s.advance c stopRequested = some s' := by
  unfold State.advance
  cases he : s.caller c with
  | outside => exact absurd he hc
  | popping =>
    obtain ⟨t, rest, hw⟩ := List.exists_cons_of_ne_nil hw
    have hhead : s.head = some t := by rw [h.chain.head, hw]; rfl
    simp only [State.pop, hhead]
    split
    · exact ⟨_, rfl⟩
    · exact ⟨_, rfl⟩
  | popped k t => exact ⟨_, rfl⟩
  | calling k => exact ⟨_, rfl⟩
  | decrementing k => exact ⟨_, rfl⟩

theorem Inv.all_executed (h : Inv s) (hc : ∀ c, s.caller c = .outside) :
    (s.executed.map Prod.fst).Perm (List.range s.popped.length) := by
  have hz : total Caller.unexecuted s.caller = 0 :=
    total_of_zero fun c => by rw [hc c]; rfl
  rw [← Multiset.coe_eq_coe]
  have hn := h.numbers
  rw [hz, add_zero] at hn
  exact hn.symm

/-- In every reachable state the loop has executed what was pushed once and in order,
touching no operation after its receiver was called. -/
theorem run_loop_executes_in_order (h : Reachable step Initial s) : ExecutesInOrder s := by
  have hi := reachable_inv h
  refine ⟨hi.chain, hi.tail, ?_, hi.line, hi.once.1, ?_, hi.mem_popped, hi.once.2, hi.fault, ?_,
    ?_, fun c b hc hw => hi.progress hc hw, ?_, ?_, ?_⟩
  · rw [hi.tail, List.getLast?_eq_none_iff]
  · intro k t sig hm
    exact hi.pushed_at (hi.executed k t sig hm)
  · rw [hi.count, card_undecremented]
  · intro c k hc
    exact hi.count_pos (c := c) (by rw [hc]; rfl)
  · intro l s' c hs hc hc'
    obtain ⟨hfin, hw, rfl⟩ := returns_step hi hs hc hc'
    exact ⟨hfin, hi.head_none hw, hw⟩
  · intro hc
    refine ⟨hi.all_executed hc, ?_⟩
    unfold State.DestructorTerminates
    rw [hi.count_eq fun c => by rw [hc c]; rfl]
    exact List.length_pos_iff
  · intro l s' c hs hc hall ls s'' hls hrun
    obtain ⟨-, hw, rfl⟩ := returns_step hi hs hc (hall c)
    have hd : Drained (s.setCaller c .outside) :=
      ⟨inv_step hi hs, hw, fun d => by rw [hall d]; rfl⟩
    exact (run_preserves_on (fun _ _ _ hp hl => drained_step hp hl) hd hls hrun).count

/-- Operation 3 is destroyed from inside its own completion, a new operation at the same
address is started there, and the second call of `run` executes it. -/
theorem run_loop_executes_in_order_reused : ∃ s : State 2, Reachable step Initial s ∧
    s.pushed = [3, 5, 3] ∧ s.executed = [(0, 3, .value), (1, 5, .stopped), (2, 3, .value)] ∧
    s.taskCount = 0 ∧ s.caller 0 = .outside ∧ ExecutesInOrder s := by
  obtain ⟨s, hs, h1, h2, h3, h4⟩ : ∃ s : State 2,
      run step {} [.construct 3, .construct 5, .start 3, .start 5, .run 0, .advance 0 false,
        .advance 0 false, .destroy 3, .construct 3, .start 3, .run 1, .advance 1 true,
        .advance 1 true, .advance 1 false, .advance 1 false, .advance 1 false, .finish,
        .advance 1 false, .destroy 3, .advance 1 false, .advance 1 false, .advance 1 false,
        .advance 0 false, .advance 0 false, .advance 0 false] = some s ∧
      s.pushed = [3, 5, 3] ∧ s.executed = [(0, 3, .value), (1, 5, .stopped), (2, 3, .value)] ∧
      s.taskCount = 0 ∧ s.caller 0 = .outside := ⟨_, rfl, rfl, rfl, rfl, rfl⟩
  have hr : Reachable step Initial s := ⟨{}, rfl, _, hs⟩
  exact ⟨s, hr, h1, h2, h3, h4, run_loop_executes_in_order hr⟩

end CCForge.RunLoop
