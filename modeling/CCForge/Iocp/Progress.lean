import CCForge.Iocp.Runs
import Mathlib.Algebra.BigOperators.Group.List.Basic
import Mathlib.Algebra.Order.BigOperators.Group.List
import Mathlib.Algebra.Order.Group.Nat

/-!
# The steps that are due

What the threads and the kernel have begun comes to an end. A call is worth more than the packet
that is posted for it, and the packet more than what the worker does with it.
-/

namespace CCForge.Iocp

variable {s s' t : State} {op : OpId} {o : Op} {c : Choice} {a : Label}

/-! ## What is left to do -/

def CompleteStage.rank : CompleteStage → ℕ
  | .claim => 3
  | .teardown => 2
  | .receiver => 1

def Callback.rank : Callback → ℕ
  | .absent => 0
  | .armed => 11
  | .storing => 10
  | .cancelling => 9
  | .waking => 8
  | .spent => 0

def Stage.rank : Stage → ℕ
  | .idle => 0
  | .check => 33
  | .install => 32
  | .installing => 20
  | .locked => 19
  | .accepted => 10
  | .cancelling => 9
  | .waking => 8
  | .completing _ stage => stage.rank
  | .returned => 0

def WorkerStage.rank : WorkerStage → ℕ
  | .starting => 1
  | .waiting => 0
  | .draining _ _ _ _ => 6
  | .completing _ _ stage => 2 + stage.rank
  | .checking => 2
  | .leaving => 1
  | .exited => 0

def Op.rank (o : Op) : ℕ := o.stage.rank + o.callback.rank

namespace State

/-- The steps of an operation that are left, with the call that is pending for it. -/
def rankOf (s : State) (op : OpId) : ℕ :=
  (s.ops op).rank + if (s.kernel.calls op).isSome then 8 else 0

/-- The steps of the worker that are left, with the packets in the port and to be posted to wake. -/
def rest (s : State) : ℕ := 7 * s.kernel.port.length + 8 * s.wakesDue + s.worker.rank

/-- A bound for the steps that are due. -/
def remaining (s : State) : ℕ := (s.started.map s.rankOf).sum + s.rest

end State

/-- The steps that a thread or the kernel has begun and goes on with. -/
def Label.due : Label → Bool
  | .advance _ _ | .runCallback _ | .advanceCallback _ _ | .work | .post _ _ _ _ | .wake _ => true
  | _ => false

theorem remaining_le (hstarted : s'.started = s.started) (hranks : ∀ op, s'.rankOf op ≤ s.rankOf op) :
    s'.remaining ≤ (s.started.map s.rankOf).sum + s'.rest := by
  rw [State.remaining, hstarted]
  exact Nat.add_le_add_right (List.sum_le_sum fun op _ => hranks op) _

/-- A started operation pays for the step. -/
theorem remaining_lt (hop : op ∈ s.started) (hstarted : s'.started = s.started)
    (hothers : ∀ other, other ≠ op → s'.rankOf other ≤ s.rankOf other)
    (hself : s'.rankOf op ≤ s.rankOf op) (hlt : s'.rankOf op + s'.rest < s.rankOf op + s.rest) :
    s'.remaining < s.remaining := by
  have hsum := List.sum_map_erase s.rankOf hop
  have hsum' := List.sum_map_erase s'.rankOf hop
  have hle : ((s.started.erase op).map s'.rankOf).sum ≤ ((s.started.erase op).map s.rankOf).sum := by
    refine List.sum_le_sum fun other _ => ?_
    by_cases he : other = op
    · rwa [he]
    · exact hothers other he
  rw [State.remaining, State.remaining, hstarted]
  omega

theorem rankOf_congr (hops : s'.ops op = s.ops op)
    (hcalls : (s'.kernel.calls op).isSome = (s.kernel.calls op).isSome) : s'.rankOf op = s.rankOf op := by
  simp only [State.rankOf, hops, hcalls]

theorem rankOf_setOp (s : State) (op : OpId) (o : Op) : (s.setOp op o).rankOf op =
    o.rank + if (s.kernel.calls op).isSome then 8 else 0 := by
  simp only [State.rankOf, State.setOp, Function.update_self]
  rfl

theorem rankOf_setOp_of_ne {other : OpId} (hne : other ≠ op) :
    (s.setOp op o).rankOf other = s.rankOf other := by
  simp only [State.rankOf, State.setOp, Function.update_of_ne hne]
  rfl

/-- A step of one operation. -/
theorem remaining_setOp (hop : op ∈ s.started) (hlt : o.rank < (s.ops op).rank) :
    (s.setOp op o).remaining < s.remaining := by
  have hself := rankOf_setOp s op o
  have hold : s.rankOf op = (s.ops op).rank + if (s.kernel.calls op).isSome then 8 else 0 := rfl
  have hrest : (s.setOp op o).rest = s.rest := rfl
  exact remaining_lt hop rfl (fun other hne => (rankOf_setOp_of_ne hne).le) (by omega) (by omega)

theorem rest_wakeWorker (s : State) (c : Choice) : (s.wakeWorker c).rest ≤ s.rest + 7 := by
  simp only [State.wakeWorker, State.rest, Kernel.postWake]
  split
  · simp only [List.length_append, List.length_singleton]
    omega
  · omega

theorem rankOf_wakeWorker (s : State) (c : Choice) (op : OpId) :
    (s.wakeWorker c).rankOf op = s.rankOf op := by
  simp only [State.wakeWorker, State.rankOf, Kernel.postWake]
  split <;> rfl

/-- A step of one operation that wakes the worker. -/
theorem remaining_wakeWorker (hop : op ∈ s.started) (hlt : o.rank + 7 < (s.ops op).rank) :
    ((s.wakeWorker c).setOp op o).remaining < s.remaining := by
  have hself := rankOf_setOp (s.wakeWorker c) op o
  have hsame := rankOf_wakeWorker s c op
  have hnew : (s.wakeWorker c).rankOf op =
      (s.ops op).rank + if ((s.wakeWorker c).kernel.calls op).isSome then 8 else 0 := rfl
  have hrest : ((s.wakeWorker c).setOp op o).rest ≤ s.rest + 7 := rest_wakeWorker s c
  refine remaining_lt hop rfl (fun other hne => ?_) (by omega) (by omega)
  rw [rankOf_setOp_of_ne hne, rankOf_wakeWorker]

/-- A cancellation leaves the calls to the kernel. -/
theorem cancelRecord_spec (s : State) (target : OpId) :
    (s.cancelRecord target).1.remaining = s.remaining ∧
      (s.cancelRecord target).1.started = s.started := by
  unfold State.cancelRecord
  split
  · refine ⟨?_, rfl⟩
    have hranks : State.rankOf { s with kernel := s.kernel.cancelIo fun op => op = target } = s.rankOf :=
      funext fun op => rankOf_congr rfl (Option.isSome_map ..)
    exact congrArg (fun r => (s.started.map r).sum + s.rest) hranks
  · exact ⟨rfl, rfl⟩

/-- The record of an accepted operation is paid for by its start. -/
theorem remaining_start (h : Inv s) (hop : op ∈ s.started) (hst : (s.ops op).stage = .locked)
    {result : Option StartResult} (hs : s.start op c = some (t, result)) :
    (t.setStage op (State.afterStart result)).remaining < s.remaining := by
  obtain ⟨u, hp, ⟨hrefused, rfl⟩ | ⟨rfl, hr⟩⟩ :=
    start_spec h.counts h.modes (h.notMem_of_locked hst) hs
  · obtain ⟨objects, entries, rfl⟩ := hp.associates
    obtain ⟨completion, hafter⟩ := afterStart_of_refused hrefused
    rw [hafter]
    exact remaining_setOp hop (by simp [Op.rank, hst, Stage.rank, CompleteStage.rank])
  · obtain ⟨objects, entries, rfl⟩ := hp.associates
    obtain ⟨call, hcalls⟩ := hr.calls
    have hstarted : (t.setStage op .accepted).started = s.started := by
      change t.started = _
      rw [hr.rest]
    have hrest : (t.setStage op .accepted).rest = s.rest := by
      change t.rest = _
      rw [State.rest, hr.kernel, hr.rest]
      rfl
    have hself : (t.setStage op .accepted).rankOf op = _ := rankOf_setOp ..
    have hold : s.rankOf op = (s.ops op).rank + if (s.kernel.calls op).isSome then 8 else 0 := rfl
    simp only [Op.rank, hst, hr.ops, hcalls, Stage.rank, Function.update_self, Option.isSome_some,
      if_true] at hself hold
    refine remaining_lt hop hstarted (fun other hne => ?_) ?_ ?_
    · refine ((rankOf_setOp_of_ne hne).trans (rankOf_congr (by rw [hr.ops]) ?_)).le
      rw [hcalls, Function.update_of_ne hne]
    · change (t.setStage op .accepted).rankOf op ≤ _
      omega
    · change (t.setStage op .accepted).rankOf op + (t.setStage op .accepted).rest < _
      omega

theorem advanceStart_lt (h : Inv s) (hs : s.advanceStart op c = some s') :
    s'.remaining < s.remaining := by
  have hop : op ∈ s.started := by
    rw [h.started]
    intro hidle
    simp [State.advanceStart, hidle] at hs
  unfold State.advanceStart at hs
  dsimp only at hs
  split at hs
  · cases hs
  · next hst =>
    split_ifs at hs <;> cases hs
    all_goals exact remaining_setOp hop (by simp [Op.rank, hst, Stage.rank, CompleteStage.rank])
  · next hst =>
    split_ifs at hs <;> cases hs
    all_goals refine remaining_setOp hop ?_
    all_goals simp only [Op.rank, hst, Stage.rank, CompleteStage.rank, Callback.rank]
    all_goals omega
  · next hst =>
    split at hs
    · cases hs
      exact remaining_setOp hop (by simp [Op.rank, hst, Stage.rank])
    · cases hs
  · next hst =>
    obtain ⟨⟨t, result⟩, hstart, rfl⟩ := Option.map_eq_some_iff.mp hs
    exact remaining_start h hop hst hstart
  · next hst =>
    cases hs
    refine remaining_setOp hop ?_
    split <;> simp [Op.rank, hst, Stage.rank]
  · next hst =>
    cases hs
    obtain ⟨hsame, hstarted⟩ := cancelRecord_spec s op
    rw [← hsame]
    refine remaining_setOp (by rwa [hstarted]) ?_
    simp only [Op.rank, ops_cancelRecord, hst]
    split <;> simp [Stage.rank]
  · next hst =>
    cases hs
    refine remaining_wakeWorker hop ?_
    simp only [State.wakeWorker, Op.rank, hst, Stage.rank]
    omega
  · next completion stage hst =>
    obtain ⟨⟨t, next⟩, hcomplete, rfl⟩ := Option.map_eq_some_iff.mp hs
    dsimp only
    rcases complete_cases hcomplete with
      ⟨rfl, -, rfl, rfl⟩ | ⟨rfl, -, rfl, rfl⟩ | ⟨rfl, rfl, rfl⟩ | ⟨rfl, rfl, rfl⟩
    · exact remaining_setOp hop (by simp [Op.rank, hst, Stage.rank, CompleteStage.rank])
    all_goals
      rw [setStage_setOp]
      refine remaining_setOp hop ?_
      simp only [Op.rank, hst, Stage.rank, CompleteStage.rank, Callback.rank, Option.elim]
      omega
  · cases hs

/-- A callback is there only after the start. -/
theorem Inv.started_of_callback (h : Inv s) (hne : (s.ops op).callback ≠ .absent) : op ∈ s.started := by
  rw [h.started]
  intro hidle
  have hadmits := h.callbacks op
  rw [hidle] at hadmits
  exact hne hadmits

theorem advanceCallback_lt (h : Inv s) (hs : s.advanceCallback op c = some s') :
    s'.remaining < s.remaining := by
  have hop : op ∈ s.started := by
    refine h.started_of_callback fun habsent => ?_
    simp [State.advanceCallback, habsent] at hs
  unfold State.advanceCallback at hs
  split at hs
  · next hcallback =>
    cases hs
    exact remaining_setOp hop (by simp [Op.rank, hcallback, Callback.rank])
  · next hcallback =>
    obtain ⟨hsame, hstarted⟩ := cancelRecord_spec s op
    have hops := ops_cancelRecord s op
    generalize s.cancelRecord op = r at hs hsame hstarted hops
    obtain ⟨u, found⟩ := r
    change u.ops = s.ops at hops
    cases hs
    rw [← hsame]
    refine remaining_setOp (by rwa [hstarted]) ?_
    simp only [Op.rank, hops, hcallback]
    split <;> simp [Callback.rank]
  · next hcallback =>
    cases hs
    refine remaining_wakeWorker hop ?_
    simp only [Op.rank, hcallback, Callback.rank]
    omega
  · cases hs

/-- A step of the worker. -/
theorem remaining_worker (hstarted : s'.started = s.started) (hranks : ∀ op, s'.rankOf op ≤ s.rankOf op)
    (hrest : s'.rest < s.rest) : s'.remaining < s.remaining := by
  have hle := remaining_le hstarted hranks
  change _ < (s.started.map s.rankOf).sum + s.rest
  omega

theorem rankOf_setOp_le (hle : o.rank ≤ (s.ops op).rank) (other : OpId) :
    (s.setOp op o).rankOf other ≤ s.rankOf other := by
  by_cases he : other = op
  · subst he
    rw [rankOf_setOp]
    exact Nat.add_le_add_right hle _
  · exact (rankOf_setOp_of_ne he).le

/-- A completion by the worker costs the operation nothing. -/
theorem complete_rank {party : Party} {completion : Completion} {stage : CompleteStage}
    {next : Option CompleteStage} (hs : s.complete op party completion stage = some (t, next)) :
    (∃ o : Op, t = s.setOp op o ∧ o.rank ≤ (s.ops op).rank) ∧
      next.elim 0 CompleteStage.rank < stage.rank := by
  rcases complete_cases hs with ⟨rfl, -, rfl, rfl⟩ | ⟨rfl, -, rfl, rfl⟩ | ⟨rfl, rfl, rfl⟩ |
    ⟨rfl, rfl, rfl⟩
  · exact ⟨⟨t.ops op, by simp [State.setOp], le_rfl⟩, by simp [CompleteStage.rank]⟩
  · exact ⟨⟨_, rfl, le_rfl⟩, by simp [CompleteStage.rank]⟩
  · exact ⟨⟨_, rfl, by simp [Op.rank, Callback.rank]⟩, by simp [CompleteStage.rank]⟩
  · exact ⟨⟨_, rfl, le_rfl⟩, by simp [CompleteStage.rank]⟩

theorem work_lt (h : Inv s) (hs : s.work = some s') : s'.remaining < s.remaining := by
  unfold State.work at hs
  split at hs
  · next hw =>
    cases hs
    refine remaining_worker rfl (fun _ => le_rfl) ?_
    simp [State.rest, hw, WorkerStage.rank]
  · next hw =>
    split at hs
    · cases hs
    · next packet port hport =>
      dsimp only at hs
      split at hs
      all_goals
        cases hs
        refine remaining_worker rfl (fun _ => le_rfl) ?_
        simp only [State.rest, hw, hport, WorkerStage.rank, List.length_cons]
        omega
  · next op ok bytes error hw =>
    have htake := take_spec h.counts (h.mem_of_draining hw)
    generalize s.take op = r at hs htake
    obtain ⟨u, found⟩ := r
    obtain ⟨rfl, ht⟩ := htake
    change Takes s op u at ht
    cases hs
    have hkernel : u.kernel = s.kernel := by rw [ht.rest]
    have hwakes : u.wakesDue = s.wakesDue := by rw [ht.rest]
    have hstarted : u.started = s.started := by rw [ht.rest]
    refine remaining_worker hstarted (fun other => (rankOf_congr ?_ ?_).le) ?_
    · exact congrFun ht.ops other
    · exact congrArg (fun k : Kernel => (k.calls other).isSome) hkernel
    · simp [State.rest, hw, hkernel, hwakes, WorkerStage.rank, CompleteStage.rank]
  · next op completion stage hw =>
    obtain ⟨⟨t, next⟩, hcomplete, rfl⟩ := Option.map_eq_some_iff.mp hs
    obtain ⟨⟨o, rfl, hle⟩, hnext⟩ := complete_rank hcomplete
    refine remaining_worker rfl (rankOf_setOp_le hle) ?_
    cases next with
    | none =>
      have hpos : 0 < stage.rank := hnext
      simp only [State.rest, hw, WorkerStage.rank, State.setOp, Option.elim]
      omega
    | some next =>
      have hlt : next.rank < stage.rank := hnext
      simp only [State.rest, hw, WorkerStage.rank, State.setOp, Option.elim]
      omega
  · next hw =>
    cases hs
    refine remaining_worker rfl (fun _ => le_rfl) ?_
    simp only [State.rest, hw]
    split <;> simp [WorkerStage.rank]
  · next hw =>
    cases hs
    refine remaining_worker rfl (fun _ => le_rfl) ?_
    simp [State.rest, hw, WorkerStage.rank]
  · cases hs

/-- A packet is posted for a started operation. -/
theorem Inv.started_of_call (h : Inv s) (hcall : (s.kernel.calls op).isSome = true) : op ∈ s.started := by
  have hpending : op ∈ s.pendingRecords := by
    by_contra hnot
    have hdue := h.counts.due_eq_zero hnot
    simp only [State.due, Kernel.outstanding, hcall, if_true] at hdue
    omega
  obtain ⟨life, hl⟩ := h.lives op
  obtain rfl := hl.pending.mp hpending
  rw [h.started]
  intro hidle
  have hfits := hl.stage
  rw [hidle] at hfits
  cases hfits

theorem post_lt (h : Inv s) {ok : Bool} {bytes : ℕ} {error : ErrorCode} {kernel : Kernel}
    (hpost : s.kernel.post op ok bytes error = some kernel) :
    State.remaining { s with kernel := kernel } < s.remaining := by
  unfold Kernel.post at hpost
  split at hpost
  · next hcall =>
    cases hpost
    have hold : s.rankOf op = (s.ops op).rank + if (s.kernel.calls op).isSome then 8 else 0 := rfl
    refine remaining_lt (h.started_of_call hcall) rfl (fun other hne => (rankOf_congr ?_ ?_).le) ?_ ?_
    · rfl
    · simp only [Function.update_of_ne hne]
    · simp [State.rankOf]
    · simp only [State.rankOf, State.rest, hcall, Function.update_self, List.length_append,
        List.length_singleton, Option.isSome_none, if_true, Bool.false_eq_true, if_false]
      omega
  · cases hpost

/-- Each step that is due lowers the bound. -/
theorem step_lt (h : Inv s) (ha : a.due = true) (hs : s.step a = some s') : s'.remaining < s.remaining := by
  cases a with
  | advance op c => exact advanceStart_lt h hs
  | runCallback op =>
    simp only [State.step, Option.ite_none_right_eq_some, Option.some.injEq] at hs
    obtain ⟨⟨-, hcallback⟩, rfl⟩ := hs
    refine remaining_setOp (h.started_of_callback (by simp [hcallback])) ?_
    simp [Op.rank, hcallback, Callback.rank]
  | advanceCallback op c => exact advanceCallback_lt h hs
  | work => exact work_lt h hs
  | post op ok bytes error =>
    obtain ⟨kernel, hpost, rfl⟩ := Option.map_eq_some_iff.mp hs
    exact post_lt h hpost
  | wake c =>
    simp only [State.step, Option.ite_none_right_eq_some, Option.some.injEq] at hs
    obtain ⟨hpos, rfl⟩ := hs
    have hrest := rest_wakeWorker { s with wakesDue := s.wakesDue - 1 } c
    refine remaining_worker rfl (fun op => (rankOf_wakeWorker _ c op).le) (hrest.trans_lt ?_)
    simp only [State.rest]
    omega
  | _ => cases ha

end CCForge.Iocp
