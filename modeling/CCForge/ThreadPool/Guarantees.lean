import CCForge.ThreadPool.Invariants

/-!
# What the pool guarantees

The invariant holds in every reachable state: for any number of workers and any
capacity, whatever threads submit, start operations, wait and shut down in whatever
order, with any allocation free to fail and any task free to throw.
-/

namespace CCForge.ThreadPool

variable {n : ℕ} {s s' : State n}

/-! ## Tasks -/

theorem Pipeline.accepted_eq (h : Pipeline s) :
    (s.accepted : Multiset Task) = s.executed + total Worker.unexecuted s.worker +
      s.shared.queue := by
  rw [h.line, ← Multiset.coe_add, h.executed]

theorem Pipeline.accepted_nodup (h : Pipeline s) : s.accepted.Nodup :=
  (List.nodup_append.mp h.nodup).1

theorem Pipeline.executed_nodup (h : Pipeline s) : s.executed.Nodup := by
  have hn : (s.accepted : Multiset Task).Nodup := Multiset.coe_nodup.mpr h.accepted_nodup
  rw [h.accepted_eq, add_assoc] at hn
  exact Multiset.coe_nodup.mp (Multiset.nodup_add.mp hn).1

theorem mem_unexecuted {task : Task} :
    task ∈ total Worker.unexecuted s.worker ↔ ∃ w, s.worker w = .holding task := by
  rw [mem_total]
  apply exists_congr
  intro w
  cases s.worker w with
  | holding t => simp [Worker.unexecuted, eq_comm]
  | _ => simp [Worker.unexecuted]

theorem Pipeline.mem_accepted (h : Pipeline s) (task : Task) :
    task ∈ s.accepted ↔
      task ∈ s.executed ∨ (∃ w, s.worker w = .holding task) ∨ task ∈ s.shared.queue := by
  rw [← Multiset.mem_coe, h.accepted_eq]
  simp only [Multiset.mem_add, Multiset.mem_coe, mem_unexecuted, or_assoc]

/-- A worker whose decrement has not run. -/
def Worker.unaccounted : Worker → Bool
  | .holding _ | .running _ | .accounting _ => true
  | _ => false

theorem card_held (s : State n) : Multiset.card (total Worker.held s.worker) =
    (Finset.univ.filter fun w => (s.worker w).unaccounted = true).card := by
  apply card_total
  intro x
  cases x <;> rfl

theorem Pipeline.active_pos (h : Pipeline s) {w : Fin n} (hw : (s.worker w).unaccounted = true) :
    0 < s.shared.active := by
  have hpos : 0 < (Finset.univ.filter fun w => (s.worker w).unaccounted = true).card :=
    Finset.card_pos.mpr ⟨w, by simpa using hw⟩
  rw [h.active, card_held]
  omega

/-! ## Waiting -/

theorem Pipeline.idle_iff (h : Pipeline s) :
    s.shared.Idle ↔ s.shared.queue = [] ∧ total Worker.held s.worker = 0 := by
  unfold Shared.Idle
  rw [h.active]
  constructor
  · rintro ⟨hq, ha⟩
    exact ⟨hq, Multiset.card_eq_zero.mp (by omega)⟩
  · rintro ⟨hq, ha⟩
    simp [hq, ha]

/-- Without duplicates, all of `p + q` is in `l` only when nothing is left over. -/
theorem nothing_left {l q : List Task} {m a : Multiset Task} (hn : a.Nodup)
    (ha : a = l + m + q) (hall : ∀ task ∈ a, task ∈ l) : m = 0 ∧ q = [] := by
  rw [ha, add_assoc] at hn
  obtain ⟨-, -, hd⟩ := Multiset.nodup_add.mp hn
  have hzero : m + (q : Multiset Task) = 0 := by
    apply Multiset.eq_zero_of_forall_notMem
    intro task hm
    have hl : task ∈ l := hall task (by rw [ha, add_assoc]; exact Multiset.mem_add.mpr (.inr hm))
    exact Multiset.disjoint_left.mp hd (Multiset.mem_coe.mpr hl) hm
  have hcard := congrArg Multiset.card hzero
  simpa using hcard

theorem Pipeline.idle_iff_finished (h : Pipeline s) :
    s.shared.Idle ↔ ∀ task ∈ s.accepted, task ∈ s.finished := by
  have ha : (s.accepted : Multiset Task) =
      s.finished + total Worker.held s.worker + s.shared.queue := by
    rw [h.line, ← Multiset.coe_add, h.finished]
  rw [h.idle_iff]
  constructor
  · rintro ⟨hq, hz⟩ task hm
    rw [hq, hz] at ha
    have hm' : task ∈ (s.accepted : Multiset Task) := hm
    simpa [ha] using hm'
  · intro hall
    have hleft := nothing_left (Multiset.coe_nodup.mpr h.accepted_nodup) ha hall
    exact ⟨hleft.2, hleft.1⟩

/-- Between its return and its decrement a task is what keeps the waiters waiting. -/
theorem Pipeline.idle_iff_returned (h : Pipeline s) :
    s.shared.Idle ↔ (∀ task ∈ s.accepted, task ∈ s.returned) ∧
      ∀ w task, s.worker w ≠ .accounting task := by
  have ha : (s.accepted : Multiset Task) =
      s.returned + total Worker.unreturned s.worker + s.shared.queue := by
    rw [h.line, ← Multiset.coe_add, h.returned]
  rw [h.idle_iff, total_eq_zero_iff]
  constructor
  · rintro ⟨hq, hz⟩
    constructor
    · have hun : total Worker.unreturned s.worker = 0 := by
        rw [total_eq_zero_iff]
        intro w
        have hw := hz w
        cases he : s.worker w <;> simp_all [Worker.held, Worker.unreturned]
      intro task hm
      rw [hq, hun] at ha
      have hm' : task ∈ (s.accepted : Multiset Task) := hm
      simpa [ha] using hm'
    · intro w task hw
      have hw' := hz w
      simp [hw, Worker.held] at hw'
  · rintro ⟨hall, hnone⟩
    obtain ⟨hun, hq⟩ := nothing_left (Multiset.coe_nodup.mpr h.accepted_nodup) ha hall
    refine ⟨hq, fun w => ?_⟩
    have hw := total_eq_zero_iff.mp hun w
    have hw' := hnone w
    cases he : s.worker w <;> simp_all [Worker.held, Worker.unreturned]

/-! ## Receivers -/

theorem completed_eq (l : List (OpId × Signal)) :
    ((l.map Prod.fst : List OpId) : Multiset OpId) = values l + stops l := by
  induction l with
  | nil => rfl
  | cons c l ih =>
    obtain ⟨op, sig⟩ := c
    rw [List.map_cons, ← Multiset.cons_coe, ih]
    cases sig with
    | value => exact (Multiset.cons_add op _ _).symm
    | stopped => exact (Multiset.add_cons op _ _).symm

/-- The started operations by what becomes of them. -/
theorem Inv.started_eq (h : Inv s) : (s.started : Multiset OpId) =
    (s.completed.map Prod.fst : List OpId) +
      Multiset.filterMap Task.op? (total Worker.unexecuted s.worker + s.shared.queue) +
      s.stopping := by
  have hops : ((s.accepted.filterMap Task.op? : List OpId) : Multiset OpId) =
      values s.completed +
        Multiset.filterMap Task.op? (total Worker.unexecuted s.worker + s.shared.queue) := by
    rw [← Multiset.filterMap_coe, h.pipeline.accepted_eq, add_assoc, Multiset.filterMap_add,
      h.receivers.value]
    rfl
  rw [h.receivers.ops, hops, completed_eq]
  abel

theorem Inv.completed_nodup (h : Inv s) : (s.completed.map Prod.fst).Nodup := by
  have hn : (s.started : Multiset OpId).Nodup := Multiset.coe_nodup.mpr h.receivers.nodup
  rw [h.started_eq, add_assoc] at hn
  exact Multiset.coe_nodup.mp (Multiset.nodup_add.mp hn).1

theorem Inv.value_iff (h : Inv s) {op : OpId} {sig : Signal} (hc : (op, sig) ∈ s.completed) :
    sig = .value ↔ Task.schedule op ∈ s.accepted := by
  have hn : (s.started : Multiset OpId).Nodup := Multiset.coe_nodup.mpr h.receivers.nodup
  rw [h.receivers.ops] at hn
  have hd := (Multiset.nodup_add.mp (Multiset.nodup_add.mp hn).1).2.2
  constructor
  · rintro rfl
    have hv : op ∈ values s.completed := List.mem_filterMap.mpr ⟨_, hc, by simp⟩
    rw [h.receivers.value] at hv
    obtain ⟨task, hx, he⟩ := List.mem_filterMap.mp hv
    cases task with
    | plain id => cases he
    | schedule o =>
      cases he
      exact (h.pipeline.mem_accepted _).mpr (.inl hx)
  · intro ha
    cases sig with
    | value => rfl
    | stopped =>
      exfalso
      have hs : op ∈ stops s.completed := List.mem_filterMap.mpr ⟨_, hc, by simp⟩
      have hv : op ∈ s.accepted.filterMap Task.op? := List.mem_filterMap.mpr ⟨_, ha, rfl⟩
      exact Multiset.disjoint_left.mp hd (Multiset.mem_coe.mpr hv) (Multiset.mem_coe.mpr hs)

/-! ## Progress -/

/-- How many steps a worker can still take without another task. -/
def Worker.work : Worker → ℕ
  | .waiting => 1
  | .holding _ => 4
  | .running _ => 3
  | .accounting _ => 2
  | .exited => 0

/-- A bound on the steps that are due. -/
def State.work (s : State n) : ℕ :=
  4 * s.shared.queue.length + total Worker.work s.worker + s.stopping.length

theorem work_step {l : Label n} (hl : l.due = true) (hs : step s l = some s') :
    s'.work < s.work := by
  cases l with
  | advance w =>
    have hu := fun x => total_update Worker.work s.worker w x
    simp only [step, State.advance] at hs
    split at hs
    · next hw =>
      unfold State.pop Shared.pop at hs
      cases hq : s.shared.queue with
      | nil =>
        rw [hq] at hs
        by_cases hstop : s.shared.stop = true
        · simp only [hstop, if_true] at hs
          cases hs
          have hx := hu .exited
          simp only [hw, Worker.work] at hx
          simp only [State.work, State.setWorker]
          omega
        · simp [hstop] at hs
      | cons task rest =>
        rw [hq] at hs
        cases hs
        have hx := hu (.holding task)
        simp only [hw, Worker.work] at hx
        simp only [State.work, State.setWorker, hq, List.length_cons]
        omega
    · next task hw =>
      cases hs
      have hx := hu (.running task)
      simp only [hw, Worker.work] at hx
      simp only [State.work, State.setWorker, State.execute]
      omega
    · next task hw =>
      cases hs
      have hx := hu (.accounting task)
      simp only [hw, Worker.work] at hx
      simp only [State.work, State.setWorker]
      omega
    · next task hw =>
      cases hs
      have hx := hu .waiting
      simp only [hw, Worker.work] at hx
      simp only [State.work, State.setWorker, Shared.account]
      omega
    · cases hs
  | setStopped op =>
    simp only [step, Option.ite_none_right_eq_some, Option.some.injEq] at hs
    obtain ⟨hop, rfl⟩ := hs
    have hlen := List.length_erase_of_mem hop
    have hpos := List.length_pos_of_mem hop
    simp only [State.work, hlen]
    omega
  | _ => cases hl

/-- No step is due: no worker can move and no refused operation has to be stopped. -/
def Settled (s : State n) : Prop := ∀ l : Label n, l.due = true → step s l = none

theorem Settled.worker (h : Settled s) (w : Fin n) :
    s.worker w = .waiting ∨ s.worker w = .exited := by
  have hw : s.advance w = none := h (.advance w) rfl
  unfold State.advance at hw
  cases he : s.worker w <;> simp_all

theorem Settled.queue (h : Settled s) (hp : Pipeline s) (w : Fin n) : s.shared.queue = [] := by
  rcases h.worker w with hw | hw
  · have ha : s.advance w = none := h (.advance w) rfl
    simp only [State.advance, hw, State.pop, Shared.pop] at ha
    cases hq : s.shared.queue with
    | nil => rfl
    | cons task rest => simp [hq] at ha
  · exact (hp.exited w hw).2

theorem Settled.stopping (h : Settled s) : s.stopping = [] := by
  apply List.eq_nil_iff_forall_not_mem.mpr
  intro op hop
  have hs := h (.setStopped op) rfl
  simp [step, hop] at hs

theorem Settled.total (h : Settled s) {g : Worker → Multiset Task} (hw : g .waiting = 0)
    (he : g .exited = 0) : total g s.worker = 0 := by
  apply total_of_zero
  intro w
  rcases h.worker w with hx | hx
  · rw [hx, hw]
  · rw [hx, he]

/-! ## The guarantee -/

structure LosesNoTask (s : State n) : Prop where
  /-- Tasks are popped in the order of their acceptance. -/
  fifo : s.accepted = s.popped ++ s.shared.queue
  /-- A task is executed at most once, and only if it was accepted. -/
  once : s.accepted.Nodup ∧ s.executed.Nodup
  kept : ∀ task, task ∈ s.accepted ↔
    task ∈ s.executed ∨ (∃ w, s.worker w = .holding task) ∨ task ∈ s.shared.queue
  rejected : ∀ task ∈ s.rejected, task ∉ s.accepted ∧ task ∉ s.executed
  /-- A call that does not accept its task changes nothing behind the mutex. -/
  unchanged : ∀ task throws, (s.submit task throws).2 ≠ .accepted →
    (s.submit task throws).1 = { s with rejected := s.rejected ++ [task] }
  active : s.shared.active = s.shared.queue.length +
    (Finset.univ.filter fun w => (s.worker w).unaccounted = true).card
  noUnderflow : ∀ w task, s.worker w = .accounting task → 0 < s.shared.active
  capacity : ∀ c, s.shared.queueCapacity = some c → s.shared.queue.length ≤ c
  exited : ∀ w, s.worker w = .exited → s.shared.stop = true ∧ s.shared.queue = []
  idle : s.shared.Idle ↔ ∀ task ∈ s.accepted, task ∈ s.finished
  idleReturned : s.shared.Idle ↔ (∀ task ∈ s.accepted, task ∈ s.returned) ∧
    ∀ w task, s.worker w ≠ .accounting task
  /-- A receiver is completed at most once, with a value exactly if its task was accepted. -/
  completedOnce : (s.completed.map Prod.fst).Nodup
  signal : ∀ op sig, (op, sig) ∈ s.completed →
    (sig = .value ↔ Task.schedule op ∈ s.accepted)
  /-- The steps that are due come to an end, and then nothing has been lost: every
  accepted task has been executed and every started operation completed. -/
  bounded : ∀ ls s', (∀ l ∈ ls, Label.due l = true) → run step s ls = some s' →
    ls.length ≤ s.work
  settled : Settled s → s.executed.Perm s.accepted ∧ s.finished.Perm s.accepted ∧
    (s.completed.map Prod.fst).Perm s.started

theorem Options.workers_ne_zero (o : Options) : o.workers ≠ 0 := by
  unfold Options.workers
  split_ifs with h
  · exact Nat.one_ne_zero
  · exact h

instance (o : Options) : NeZero o.workers := ⟨o.workers_ne_zero⟩

theorem Inv.settled [NeZero n] (h : Inv s) (hs : Settled s) :
    s.executed.Perm s.accepted ∧ s.finished.Perm s.accepted ∧
      (s.completed.map Prod.fst).Perm s.started := by
  have hq : s.shared.queue = [] := hs.queue h.pipeline 0
  have hacc : s.accepted = s.popped := by simp [h.pipeline.line, hq]
  refine ⟨?_, ?_, ?_⟩
  · rw [hacc, ← Multiset.coe_eq_coe, h.pipeline.executed, hs.total rfl rfl, add_zero]
  · rw [hacc, ← Multiset.coe_eq_coe, h.pipeline.finished, hs.total rfl rfl, add_zero]
  · rw [← Multiset.coe_eq_coe, h.started_eq, hs.total rfl rfl, hq, hs.stopping]
    simp

/-- The pool loses no task that it accepted, in any interleaving and also over a
shutdown, and completes every schedule operation once. -/
theorem pool_loses_no_task {o : Options} {s : State o.workers}
    (h : Reachable step (· = initial o) s) : LosesNoTask s := by
  have hi := reachable_inv h
  have hp := hi.pipeline
  refine ⟨hp.line, ⟨hp.accepted_nodup, hp.executed_nodup⟩, hp.mem_accepted, ?_, ?_, ?_, ?_,
    hp.capacity, hp.exited, hp.idle_iff_finished, hp.idle_iff_returned, hi.completed_nodup,
    fun op sig hc => hi.value_iff hc, ?_, hi.settled⟩
  · intro task hm
    have hna : task ∉ s.accepted := fun ha => (List.nodup_append.mp hp.nodup).2.2 task ha task hm rfl
    exact ⟨hna, fun he => hna ((hp.mem_accepted task).mpr (.inl he))⟩
  · intro task throws hne
    rcases s.submit_cases task throws with ⟨r, -, he⟩ | ⟨-, -, he⟩
    · rw [he]
    · rw [he] at hne
      exact absurd rfl hne
  · rw [hp.active, card_held]
  · intro w task hw
    exact hp.active_pos (by rw [hw]; rfl)
  · intro ls s' hls hrun
    have hle := run_length_le (P := fun _ => True) (Q := fun l => Label.due l = true)
      (fun s a t _ ha hs => ⟨trivial, work_step ha hs⟩) trivial hls hrun
    omega

/-- One worker and one place in the queue: operation 0 is accepted, a task is refused,
operation 1 is accepted once 0 is popped and still executed after the shutdown, and
operation 2 is stopped. -/
theorem pool_loses_no_task_shutdown : ∃ s : State (Options.workers ⟨0, some 1⟩),
    Reachable step (· = initial ⟨0, some 1⟩) s ∧
    s.accepted = [.schedule 0, .schedule 1] ∧ s.rejected = [.plain 7, .schedule 2] ∧
    s.completed = [(0, .value), (2, .stopped), (1, .value)] ∧ s.worker 0 = .exited ∧
    LosesNoTask s := by
  obtain ⟨s, hs, h1, h2, h3, h4⟩ : ∃ s : State (Options.workers ⟨0, some 1⟩),
      run step (initial ⟨0, some 1⟩) [.start 0 false false, .submit 7 false, .advance 0,
        .start 1 false false, .shutdown, .start 2 false false, .advance 0, .setStopped 2,
        .advance 0, .advance 0, .advance 0, .advance 0, .advance 0, .advance 0, .waitIdle,
        .advance 0] = some s ∧
      s.accepted = [.schedule 0, .schedule 1] ∧ s.rejected = [.plain 7, .schedule 2] ∧
      s.completed = [(0, .value), (2, .stopped), (1, .value)] ∧ s.worker 0 = .exited :=
    ⟨_, rfl, rfl, rfl, rfl, rfl⟩
  have hr : Reachable step (· = initial ⟨0, some 1⟩) s := ⟨_, rfl, _, hs⟩
  exact ⟨s, hr, h1, h2, h3, h4, pool_loses_no_task hr⟩

end CCForge.ThreadPool
