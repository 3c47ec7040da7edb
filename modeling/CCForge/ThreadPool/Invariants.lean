import CCForge.ThreadPool.Model

/-!
# The invariant of the pool

The accepted tasks form one line: those popped, in the order of their acceptance,
then the queue. A popped task is in the hands of one worker until its turn is
over, so the workers' hands account for the difference between the popped and the
executed, the returned and the finished tasks.
-/

namespace CCForge.ThreadPool

variable {n : ℕ} {s s' : State n}

/-! ## What a worker holds -/

/-- The task of a worker whose decrement has not run. -/
def Worker.held : Worker → Multiset Task
  | .holding task | .running task | .accounting task => {task}
  | _ => 0

def Worker.unexecuted : Worker → Multiset Task
  | .holding task => {task}
  | _ => 0

def Worker.unreturned : Worker → Multiset Task
  | .holding task | .running task => {task}
  | _ => 0

structure Pipeline (s : State n) : Prop where
  line : s.accepted = s.popped ++ s.shared.queue
  nodup : (s.accepted ++ s.rejected).Nodup
  executed : (s.popped : Multiset Task) = s.executed + total Worker.unexecuted s.worker
  returned : (s.popped : Multiset Task) = s.returned + total Worker.unreturned s.worker
  finished : (s.popped : Multiset Task) = s.finished + total Worker.held s.worker
  active : s.shared.active =
    s.shared.queue.length + Multiset.card (total Worker.held s.worker)
  capacity : ∀ c, s.shared.queueCapacity = some c → s.shared.queue.length ≤ c
  exited : ∀ w, s.worker w = .exited → s.shared.stop = true ∧ s.shared.queue = []

def values (l : List (OpId × Signal)) : List OpId :=
  l.filterMap fun c => if c.2 = .value then some c.1 else none

def stops (l : List (OpId × Signal)) : List OpId :=
  l.filterMap fun c => if c.2 = .stopped then some c.1 else none

/-- Every started operation is accepted, stopped or about to be stopped. -/
structure Receivers (s : State n) : Prop where
  nodup : s.started.Nodup
  value : values s.completed = s.executed.filterMap Task.op?
  ops : (s.started : Multiset OpId) =
    s.accepted.filterMap Task.op? + stops s.completed + s.stopping
  rejected : ∀ op, Task.schedule op ∈ s.rejected → op ∈ s.started

structure Inv (s : State n) : Prop where
  pipeline : Pipeline s
  receivers : Receivers s

theorem Receivers.accepted (h : Receivers s) {op : OpId} (hop : Task.schedule op ∈ s.accepted) :
    op ∈ s.started := by
  have hm : op ∈ (s.started : Multiset OpId) := by
    rw [h.ops]
    simp only [Multiset.mem_add, Multiset.mem_coe, List.mem_filterMap]
    exact .inl (.inl ⟨_, hop, rfl⟩)
  exact hm

theorem inv_initial (o : Options) : Inv (initial o) := by
  have hz : ∀ g : Worker → Multiset Task, g .waiting = 0 → total g (initial o).worker = 0 :=
    fun g hg => total_of_zero fun _ => hg
  refine ⟨⟨rfl, List.nodup_nil, ?_, ?_, ?_, ?_, ?_, ?_⟩, ⟨List.nodup_nil, rfl, rfl, ?_⟩⟩
  · rw [hz _ rfl]
    rfl
  · rw [hz _ rfl]
    rfl
  · rw [hz _ rfl]
    rfl
  · rw [hz _ rfl]
    rfl
  · intro c _
    exact Nat.zero_le c
  · intro w hw
    cases hw
  · intro op hop
    cases hop

/-! ## Submission -/

theorem Shared.submit_cases (s : Shared) (task : Task) (throws : Bool) :
    (∃ r, r ≠ .accepted ∧ s.submit task throws = (s, r)) ∨
    (s.stop = false ∧ (∀ c, s.queueCapacity = some c → s.queue.length < c) ∧
      s.submit task throws =
        ({ s with queue := s.queue ++ [task], active := s.active + 1 }, .accepted)) := by
  unfold Shared.submit
  split_ifs with hstop hcap hthrow
  · exact .inl ⟨.refused, by decide, rfl⟩
  · exact .inl ⟨.refused, by decide, rfl⟩
  · exact .inl ⟨.threw, by decide, rfl⟩
  · refine .inr ⟨by simpa using hstop, ?_, rfl⟩
    intro c hc
    simpa [hc] using hcap

theorem State.submit_cases (s : State n) (task : Task) (throws : Bool) :
    (∃ r, r ≠ .accepted ∧
      s.submit task throws = ({ s with rejected := s.rejected ++ [task] }, r)) ∨
    (s.shared.stop = false ∧
      (∀ c, s.shared.queueCapacity = some c → s.shared.queue.length < c) ∧
      s.submit task throws =
        ({ s with
          shared := { s.shared with
            queue := s.shared.queue ++ [task], active := s.shared.active + 1 }
          accepted := s.accepted ++ [task] }, .accepted)) := by
  unfold State.submit
  rcases s.shared.submit_cases task throws with ⟨r, hr, he⟩ | ⟨hstop, hcap, he⟩
  · refine .inl ⟨r, hr, ?_⟩
    rw [he]
    cases r
    · exact absurd rfl hr
    · rfl
    · rfl
  · refine .inr ⟨hstop, hcap, ?_⟩
    rw [he]

theorem nodup_accept {a r : List Task} {task : Task} (h : (a ++ r).Nodup) (hf : task ∉ a ++ r) :
    (a ++ [task] ++ r).Nodup := by
  rw [List.append_assoc]
  exact List.nodup_middle.mpr (List.nodup_cons.mpr ⟨hf, h⟩)

theorem nodup_reject {a r : List Task} {task : Task} (h : (a ++ r).Nodup) (hf : task ∉ a ++ r) :
    (a ++ (r ++ [task])).Nodup := by
  rw [← List.append_assoc]
  refine List.nodup_append.mpr ⟨h, List.nodup_singleton task, ?_⟩
  intro x hx y hy hxy
  rw [List.mem_singleton.mp hy] at hxy
  exact hf (hxy ▸ hx)

theorem Pipeline.submit (h : Pipeline s) {task : Task} (throws : Bool)
    (hf : task ∉ s.accepted ++ s.rejected) : Pipeline (s.submit task throws).1 := by
  rcases s.submit_cases task throws with ⟨r, -, he⟩ | ⟨hstop, hcap, he⟩
  · rw [he]
    exact { h with nodup := nodup_reject h.nodup hf }
  · rw [he]
    refine { h with
      line := ?_, nodup := nodup_accept h.nodup hf, active := ?_, capacity := ?_, exited := ?_ }
    · simp only [h.line, List.append_assoc]
    · simp only [h.active, List.length_append, List.length_singleton]
      omega
    · intro c hc
      have hlt := hcap c hc
      simp only [List.length_append, List.length_singleton]
      omega
    · intro w hw
      have hs := (h.exited w hw).1
      rw [hstop] at hs
      cases hs

theorem Receivers.submit_plain (h : Receivers s) (id : ℕ) (throws : Bool) :
    Receivers (s.submit (.plain id) throws).1 := by
  rcases s.submit_cases (.plain id) throws with ⟨r, -, he⟩ | ⟨-, -, he⟩
  · rw [he]
    refine { h with rejected := ?_ }
    intro op hop
    exact h.rejected op (by simpa using hop)
  · rw [he]
    refine { h with ops := ?_ }
    have hplain : [Task.plain id].filterMap Task.op? = [] := rfl
    rw [List.filterMap_append, hplain, List.append_nil]
    exact h.ops

theorem inv_submit (h : Inv s) {id : ℕ} (throws : Bool)
    (hf : Task.plain id ∉ s.accepted ++ s.rejected) : Inv (s.submit (.plain id) throws).1 :=
  ⟨h.pipeline.submit throws hf, h.receivers.submit_plain id throws⟩

/-! ## Starting an operation -/

theorem Pipeline.start (h : Pipeline s) {op : OpId} (stopRequested throws : Bool)
    (hf : Task.schedule op ∉ s.accepted ++ s.rejected) :
    Pipeline (s.start op stopRequested throws) := by
  unfold State.start
  have h' : Pipeline { s with started := s.started ++ [op] } := { h with }
  split_ifs with hstop
  · exact { h' with }
  · have hsub := h'.submit throws hf
    dsimp only
    split
    · next he => rwa [he] at hsub
    · next he =>
      rw [he] at hsub
      exact { hsub with }

/-- What `start` leaves to be done, or has already handed over, is one operation more. -/
theorem Receivers.start (h : Receivers s) {op : OpId} (stopRequested throws : Bool)
    (hf : op ∉ s.started) : Receivers (s.start op stopRequested throws) := by
  have hnodup : (s.started ++ [op]).Nodup := by
    refine List.nodup_append.mpr ⟨h.nodup, List.nodup_singleton op, ?_⟩
    intro x hx y hy hxy
    rw [List.mem_singleton.mp hy] at hxy
    exact hf (hxy ▸ hx)
  have hstopping : ((s.started ++ [op] : List OpId) : Multiset OpId) =
      s.accepted.filterMap Task.op? + stops s.completed + (s.stopping ++ [op] : List OpId) := by
    rw [← Multiset.coe_add, h.ops, ← Multiset.coe_add, add_assoc]
  have hrejected : ∀ op', Task.schedule op' ∈ s.rejected → op' ∈ s.started ++ [op] :=
    fun op' hop => List.mem_append_left _ (h.rejected op' hop)
  unfold State.start
  split_ifs with hstop
  · exact ⟨hnodup, h.value, hstopping, hrejected⟩
  · dsimp only
    rcases State.submit_cases { s with started := s.started ++ [op] } (.schedule op) throws with
      ⟨r, hr, he⟩ | ⟨-, -, he⟩
    · rw [he]
      have hres : Receivers { s with
          started := s.started ++ [op], rejected := s.rejected ++ [.schedule op],
          stopping := s.stopping ++ [op] } := by
        refine ⟨hnodup, h.value, hstopping, ?_⟩
        intro op' hop
        rcases List.mem_append.mp hop with hop | hop
        · exact hrejected op' hop
        · cases List.mem_singleton.mp hop
          exact List.mem_append_right _ (List.mem_singleton_self op)
      cases r
      · exact absurd rfl hr
      · exact hres
      · exact hres
    · rw [he]
      refine ⟨hnodup, h.value, ?_, hrejected⟩
      rw [List.filterMap_append, ← Multiset.coe_add, ← Multiset.coe_add, h.ops]
      simp only [List.filterMap_cons, Task.op?, List.filterMap_nil]
      abel

theorem inv_start (h : Inv s) {op : OpId} (stopRequested throws : Bool) (hf : op ∉ s.started) :
    Inv (s.start op stopRequested throws) := by
  refine ⟨h.pipeline.start stopRequested throws ?_, h.receivers.start stopRequested throws hf⟩
  intro hm
  rcases List.mem_append.mp hm with hm | hm
  · exact hf (h.receivers.accepted hm)
  · exact hf (h.receivers.rejected op hm)

theorem inv_setStopped (h : Inv s) {op : OpId} (hop : op ∈ s.stopping) :
    Inv { s with
      stopping := s.stopping.erase op, completed := s.completed ++ [(op, .stopped)] } := by
  obtain ⟨hp, hr⟩ := h
  refine ⟨{ hp with }, { hr with value := ?_, ops := ?_ }⟩
  · rw [← hr.value]
    simp [values]
  · have hcons : (s.stopping : Multiset OpId) = {op} + (s.stopping.erase op : List OpId) := by
      rw [Multiset.singleton_add]
      exact Multiset.coe_eq_coe.mpr (List.perm_cons_erase hop)
    have hstops : stops (s.completed ++ [(op, .stopped)]) = stops s.completed ++ [op] := by
      simp [stops]
    rw [hr.ops, hstops, hcons, ← Multiset.coe_add]
    simp only [Multiset.coe_singleton]
    abel

/-! ## The workers -/

theorem Pipeline.pop (h : Pipeline s) {w : Fin n} {task : Task} {rest : List Task}
    (hw : s.worker w = .waiting) (hq : s.shared.queue = task :: rest) :
    Pipeline ({ s with
      shared := { s.shared with queue := rest }
      popped := s.popped ++ [task] }.setWorker w (.holding task)) := by
  have htake : ∀ g : Worker → Multiset Task, g .waiting = 0 → g (.holding task) = {task} →
      ∀ l : List Task, (s.popped : Multiset Task) = l + total g s.worker →
      ((s.popped ++ [task] : List Task) : Multiset Task) =
        l + total g (Function.update s.worker w (.holding task)) := by
    intro g hz hg l hl
    rw [total_update_of_zero (by rw [hw, hz]), hg, ← Multiset.coe_add, hl, add_assoc]
    rfl
  refine { h with
    line := ?_, executed := ?_, returned := ?_, finished := ?_, active := ?_, capacity := ?_,
    exited := ?_ }
  · simp [h.line, hq]
  · exact htake _ rfl rfl _ h.executed
  · exact htake _ rfl rfl _ h.returned
  · exact htake _ rfl rfl _ h.finished
  · simp only [State.setWorker]
    rw [total_update_of_zero (by rw [hw]; rfl), h.active, hq]
    simp only [Worker.held, Multiset.card_add, Multiset.card_singleton, List.length_cons]
    omega
  · intro c hc
    have hle := h.capacity c hc
    rw [hq, List.length_cons] at hle
    exact Nat.le_of_succ_le hle
  · intro v hv
    by_cases hvw : v = w
    · subst hvw
      simp at hv
    · simp only [State.setWorker, Function.update_of_ne hvw] at hv
      have hnil := (h.exited v hv).2
      rw [hq] at hnil
      cases hnil

theorem Pipeline.exit (h : Pipeline s) {w : Fin n} (hw : s.worker w = .waiting)
    (hq : s.shared.queue = []) (hstop : s.shared.stop = true) :
    Pipeline (s.setWorker w .exited) := by
  have hsame : ∀ g : Worker → Multiset Task, g .exited = g .waiting →
      total g (Function.update s.worker w .exited) = total g s.worker :=
    fun g hg => total_update_same (by rw [hw, hg])
  refine { h with executed := ?_, returned := ?_, finished := ?_, active := ?_, exited := ?_ }
  · rw [State.setWorker, hsame _ rfl]
    exact h.executed
  · rw [State.setWorker, hsame _ rfl]
    exact h.returned
  · rw [State.setWorker, hsame _ rfl]
    exact h.finished
  · rw [State.setWorker, hsame _ rfl]
    exact h.active
  · intro v _
    exact ⟨hstop, hq⟩

/-- A worker with a task goes from one place of its turn to the next. -/
theorem Pipeline.moves (h : Pipeline s) {w : Fin n} {x : Worker} {executed returned finished :
    List Task} {active : ℕ} (hx : x ≠ .exited)
    (he : ((executed : List Task) : Multiset Task) +
      total Worker.unexecuted (Function.update s.worker w x) = s.popped)
    (hr : ((returned : List Task) : Multiset Task) +
      total Worker.unreturned (Function.update s.worker w x) = s.popped)
    (hf : ((finished : List Task) : Multiset Task) +
      total Worker.held (Function.update s.worker w x) = s.popped)
    (ha : active = s.shared.queue.length +
      Multiset.card (total Worker.held (Function.update s.worker w x)))
    (completed : List (OpId × Signal)) :
    Pipeline ({ s with
      shared := { s.shared with active := active }
      executed := executed, returned := returned, finished := finished
      completed := completed }.setWorker w x) := by
  refine ⟨h.line, h.nodup, he.symm, hr.symm, hf.symm, ha, h.capacity, ?_⟩
  intro v hv
  by_cases hvw : v = w
  · subst hvw
    simp only [State.setWorker, Function.update_self] at hv
    exact absurd hv hx
  · simp only [State.setWorker, Function.update_of_ne hvw] at hv
    exact h.exited v hv

/-- The task in the hands of `w` passes from the workers to the record `l`. -/
theorem hands_over {g : Worker → Multiset Task} {w : Fin n} {x : Worker} {task : Task}
    {l : List Task} {p : Multiset Task} (hg : g (s.worker w) = {task}) (hx : g x = 0)
    (h : p = l + total g s.worker) :
    ((l ++ [task] : List Task) : Multiset Task) + total g (Function.update s.worker w x) = p := by
  rw [h, ← total_update_to_zero (g := g) (f := s.worker) (i := w) hx, hg, ← Multiset.coe_add]
  simp only [Multiset.coe_singleton]
  abel

theorem keeps_hand {g : Worker → Multiset Task} {w : Fin n} {x : Worker}
    {l : List Task} {p : Multiset Task} (hx : g x = g (s.worker w))
    (h : p = l + total g s.worker) :
    (l : Multiset Task) + total g (Function.update s.worker w x) = p := by
  rw [h, total_update_same hx]

theorem inv_advance (h : Inv s) {w : Fin n} (hs : s.advance w = some s') : Inv s' := by
  obtain ⟨hp, hr⟩ := h
  unfold State.advance at hs
  split at hs
  · next hw =>
    unfold State.pop Shared.pop at hs
    cases hq : s.shared.queue with
    | nil =>
      rw [hq] at hs
      by_cases hstop : s.shared.stop = true
      · simp only [hstop, if_true] at hs
        cases hs
        exact ⟨hp.exit hw hq hstop, { hr with }⟩
      · simp [hstop] at hs
    | cons task rest =>
      rw [hq] at hs
      cases hs
      exact ⟨hp.pop hw hq, { hr with }⟩
  · next task hw =>
    cases hs
    refine ⟨hp.moves (w := w) (x := .running task) nofun (hands_over (by rw [hw]; rfl) rfl hp.executed)
      (keeps_hand (by rw [hw]; rfl) hp.returned) (keeps_hand (by rw [hw]; rfl) hp.finished) ?_ _,
      { hr with value := ?_, ops := ?_ }⟩
    · rw [total_update_same (by rw [hw]; rfl)]
      exact hp.active
    · simp only [State.execute, State.setWorker, values, List.filterMap_append]
      have hv := hr.value
      unfold values at hv
      rw [hv]
      cases task <;> rfl
    · have hnone : stops ((task.op?.map fun op => (op, Signal.value)).toList) = [] := by
        cases task <;> rfl
      simp only [State.execute, State.setWorker]
      rw [hr.ops, stops, stops, List.filterMap_append]
      rw [stops] at hnone
      rw [hnone, List.append_nil]
  · next task hw =>
    cases hs
    refine ⟨hp.moves (w := w) (x := .accounting task) nofun
      (keeps_hand (by rw [hw]; rfl) hp.executed)
      (hands_over (by rw [hw]; rfl) rfl hp.returned) (keeps_hand (by rw [hw]; rfl) hp.finished) ?_ _,
      { hr with }⟩
    rw [total_update_same (by rw [hw]; rfl)]
    exact hp.active
  · next task hw =>
    cases hs
    refine ⟨hp.moves (w := w) (x := .waiting) nofun (keeps_hand (by rw [hw]; rfl) hp.executed)
      (keeps_hand (by rw [hw]; rfl) hp.returned) (hands_over (by rw [hw]; rfl) rfl hp.finished) ?_ _,
      { hr with }⟩
    have hless : total Worker.held (Function.update s.worker w .waiting) + {task} =
        total Worker.held s.worker := by
      have hu := total_update_to_zero (g := Worker.held) (f := s.worker) (i := w) (x := .waiting) rfl
      rwa [hw] at hu
    rw [hp.active, ← hless, Multiset.card_add, Multiset.card_singleton]
    omega
  · cases hs

/-! ## Runs -/

theorem inv_step (h : Inv s) {l : Label n} (hs : step s l = some s') : Inv s' := by
  cases l with
  | submit id throws =>
    simp only [step, Option.ite_none_right_eq_some, Option.some.injEq] at hs
    obtain ⟨hf, rfl⟩ := hs
    exact inv_submit h throws hf
  | start op stopRequested throws =>
    simp only [step, Option.ite_none_right_eq_some, Option.some.injEq] at hs
    obtain ⟨hf, rfl⟩ := hs
    exact inv_start h stopRequested throws hf
  | setStopped op =>
    simp only [step, Option.ite_none_right_eq_some, Option.some.injEq] at hs
    obtain ⟨hop, rfl⟩ := hs
    exact inv_setStopped h hop
  | shutdown =>
    cases hs
    obtain ⟨hp, hr⟩ := h
    exact ⟨{ hp with exited := fun w hw => ⟨rfl, (hp.exited w hw).2⟩ }, { hr with }⟩
  | waitIdle =>
    simp only [step, Option.ite_none_right_eq_some, Option.some.injEq] at hs
    obtain ⟨-, rfl⟩ := hs
    exact h
  | advance w => exact inv_advance h hs

theorem reachable_inv {o : Options} {s : State o.workers}
    (h : Reachable step (· = initial o) s) : Inv s := by
  refine h.preserves (P := Inv) ?_ fun _ _ _ hi hs => inv_step hi hs
  rintro _ rfl
  exact inv_initial o

end CCForge.ThreadPool
