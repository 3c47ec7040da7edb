import CCForge.Iocp.Steps

/-!
# The worker and the runs

The worker drains the packet of a pending record, takes the record out and completes its operation.
With its steps and those of the start, the invariant holds in every run.
-/

namespace CCForge.Iocp

variable {s s' t : State} {op : OpId} {life life' : Life} {o : Op} {worker : WorkerStage}

/-! ## The worker -/

/-- The worker goes on without a completion. -/
theorem Inv.worker_step (h : Inv s) {kernel : Kernel} {workerDone : Bool}
    (hobjects : kernel.objects = s.kernel.objects) (hpackets : kernel.packets = s.kernel.packets)
    (hdue : ∀ op, (kernel.outstanding op + if worker.drains op then 1 else 0) = s.due op)
    (hserves : ∀ op, worker.serves op = s.worker.serves op)
    (hleaves : worker = .leaving ∨ worker = .exited → (s.closed ∨ s.stopped) ∧ s.pending = 0) :
    Inv { s with kernel := kernel, workerDone := workerDone, worker := worker } := by
  refine h.frame ?_ (fun handle => (h.modes handle).congr ?_ (congrFun hobjects _)) rfl hpackets rfl
    hserves rfl hleaves
  · refine h.counts.congr rfl rfl (fun _ => rfl) (fun _ => rfl) (fun op _ hassociated => ?_) hdue rfl
    rwa [Kernel.isAssociated_congr (congrFun hobjects _)]
  · exact fun association ha => ⟨association, ha, rfl⟩

/-- The worker takes a packet from the port. -/
theorem outstanding_pop {packet : Packet} {port : List Packet} (hport : s.kernel.port = packet :: port)
    (op : OpId) : Kernel.outstanding { s.kernel with port := port } op +
      (if packet.overlapped = some op then 1 else 0) = s.kernel.outstanding op := by
  simp only [Kernel.outstanding, hport, List.countP_cons, decide_eq_true_eq]
  exact Nat.add_assoc ..

/-- To the start, all lives with a packet are the same. -/
theorem Stage.Fits.of_packets {stage : Stage} (h : stage.Fits life) (hlife : life.packets = 1)
    (hlife' : life'.packets = 1) : stage.Fits life' := by
  have hne : life ≠ .undecided := by
    rintro rfl
    cases hlife
  cases stage with
  | idle => exact absurd h hne
  | check => exact absurd h hne
  | install => exact absurd h hne
  | installing => exact absurd h hne
  | locked => exact absurd h hne
  | accepted => exact hlife'
  | cancelling => exact hlife'
  | waking => exact hlife'
  | completing completion stage =>
    obtain rfl : life = .refused stage.claimed := h
    cases hlife
  | returned => exact .inl hlife'

/-- The packet that the worker has in its hands is the one of a pending record. -/
theorem Inv.mem_of_draining (h : Inv s) {ok : Bool} {bytes : ℕ} {error : ErrorCode}
    (hw : s.worker = .draining op ok bytes error) : op ∈ s.pendingRecords := by
  by_contra hnot
  have hdue := h.counts.due_eq_zero hnot
  simp [State.due, hw, WorkerStage.drains] at hdue

/-- The worker takes the record out. -/
theorem Inv.take (h : Inv s) {ok : Bool} {bytes : ℕ} {error : ErrorCode} (completion : Completion)
    (hw : s.worker = .draining op ok bytes error) :
    (s.take op).2 = true ∧ Inv { (s.take op).1 with worker := .completing op completion .claim } := by
  have hop := h.mem_of_draining hw
  obtain ⟨hfound, ht⟩ := take_spec h.counts hop
  refine ⟨hfound, ?_⟩
  generalize (s.take op).1 = t at ht
  have hops := ht.ops
  have hpackets : t.kernel.packets = s.kernel.packets := by rw [ht.rest]
  have hstarted : t.started = s.started := by rw [ht.rest]
  refine ⟨ht.counts h.counts hop (fun other => ?_) (fun _ => rfl), fun handle => ?_, fun other => ?_,
    ?_, ?_, fun other => ?_⟩
  · rw [hw]
    rfl
  · exact ⟨(ht.modeAt (h.modes handle)).mode, (ht.modeAt (h.modes handle)).fresh⟩
  · obtain ⟨life, hl⟩ := h.lives other
    by_cases he : other = op
    · subst he
      obtain rfl := hl.pending.mp hop
      refine ⟨.drained false, ?_, ?_, ?_, ?_, ?_, ?_⟩
      · simp [ht.pendingRecords]
      · exact (congrFun hpackets other).trans hl.packets
      · rw [hops]
        exact hl.done
      · rw [hops]
        exact hl.completers
      · exact if_pos rfl
      · rw [hops]
        exact hl.stage.of_packets rfl rfl
    · have hserved := hl.served
      rw [hw] at hserved
      refine ⟨life, ?_, ?_, ?_, ?_, ?_, ?_⟩
      · change other ∈ t.pendingRecords ↔ _
        rw [ht.pendingRecords, Finset.mem_erase, and_iff_right he]
        exact hl.pending
      · exact (congrFun hpackets other).trans hl.packets
      · rw [hops]
        exact hl.done
      · rw [hops]
        exact hl.completers
      · exact (if_neg (Ne.symm he)).trans hserved
      · rw [hops]
        exact hl.stage
  · rintro (hw' | hw') <;> cases hw'
  · rw [hops]
    exact h.callbacks
  · change other ∈ t.started ↔ _
    rw [hops, hstarted]
    exact h.started other

/-- The life of an operation that the worker completes goes on. -/
theorem Inv.serve (h : Inv s) (life : Life) {claimed : Bool} (hl : Follows s op (.drained claimed))
    (hrequest : o.request = (s.ops op).request) (hstage : o.stage = (s.ops op).stage)
    (hdrains : ∀ other, worker.drains other = s.worker.drains other)
    (hserves : ∀ other, other ≠ op → worker.serves other = s.worker.serves other)
    (hnot : worker ≠ .leaving ∧ worker ≠ .exited) (hpackets : life.packets = 1)
    (hlife : life ≠ .accepted) (hdone : o.done = life.done)
    (hcompleters : o.completions.map Prod.fst = life.completers)
    (hserved : worker.serves op = life.served) : Inv { s.setOp op o with worker := worker } := by
  have hop : (s.setOp op o).ops op = o := Function.update_self ..
  refine h.setOp worker s.started hrequest hdrains hserves (fun hw => absurd hw (by simp [hnot]))
    ⟨life, ?_⟩ (.of_ne ?_ ?_) (by rw [hstage]; exact h.started op) fun _ _ => Iff.rfl
  · refine ⟨?_, hl.packets.trans hpackets.symm, ?_, ?_, hserved, ?_⟩
    · refine iff_of_false (fun hm => ?_) hlife
      cases hl.pending.mp hm
    all_goals rw [hop]
    · exact hdone
    · exact hcompleters
    · rw [hstage]
      exact hl.stage.of_packets rfl hpackets
  -- The start of such an operation is past the section.
  all_goals
    intro heq
    have hfits := hl.stage
    rw [← hstage, heq] at hfits
    cases hfits

/-- The worker completes the operation whose record it took out. -/
theorem Inv.complete_worker (h : Inv s) {completion : Completion} {stage : CompleteStage}
    {next : Option CompleteStage} (hw : s.worker = .completing op completion stage)
    (hs : s.complete op .worker completion stage = some (t, next)) :
    Inv { t with worker := next.elim .checking (.completing op completion) } := by
  obtain ⟨life, hl⟩ := h.lives op
  have hserved := hl.served
  have hdrains : ∀ other, s.worker.drains other = false := by
    intro other
    rw [hw]
    rfl
  have hother : ∀ other, other ≠ op → s.worker.serves other = none := by
    intro other hne
    rw [hw]
    exact if_neg (Ne.symm hne)
  rw [hw, WorkerStage.serves, if_pos rfl] at hserved
  obtain rfl : life = .drained stage.claimed := by
    cases life <;> simp [Life.served] at hserved ⊢
    exact hserved.symm
  rcases complete_cases hs with
    ⟨rfl, hclaimed, -, -⟩ | ⟨rfl, -, rfl, rfl⟩ | ⟨rfl, rfl, rfl⟩ | ⟨rfl, rfl, rfl⟩
  · have hdone := hl.done
    rw [hclaimed] at hdone
    cases hdone
  · exact h.serve (.drained true) hl rfl rfl (fun other => (hdrains other).symm)
      (fun other hne => (if_neg (Ne.symm hne)).trans (hother other hne).symm) (by simp) rfl (by simp) rfl
      hl.completers (if_pos rfl)
  · exact h.serve (.drained true) hl rfl rfl (fun other => (hdrains other).symm)
      (fun other hne => (if_neg (Ne.symm hne)).trans (hother other hne).symm) (by simp) rfl (by simp)
      hl.done hl.completers (if_pos rfl)
  · refine h.serve (.completed .worker) hl rfl rfl (fun other => (hdrains other).symm)
      (fun other hne => (hother other hne).symm) (by simp) rfl (by simp) hl.done ?_ rfl
    rw [List.map_append, hl.completers]
    rfl

theorem Inv.work (h : Inv s) (hs : s.work = some s') : Inv s' := by
  unfold State.work at hs
  split at hs
  · next hw =>
    cases hs
    exact h.worker_step rfl rfl (fun op => by simp [State.due, hw, WorkerStage.drains])
      (fun op => by simp [hw, WorkerStage.serves]) (by simp)
  · next hw =>
    split at hs
    · cases hs
    · next packet port hport =>
      dsimp only at hs
      split at hs
      · next hnone =>
        cases hs
        refine h.worker_step rfl rfl (fun op => ?_) (fun op => by rw [hw]; rfl) (by simp)
        rw [State.due, hw, ← outstanding_pop hport, hnone]
        rfl
      · next op hsome =>
        cases hs
        refine h.worker_step rfl rfl (fun other => ?_) (fun op => by rw [hw]; rfl) (by simp)
        rw [State.due, hw, ← outstanding_pop hport, hsome]
        simp [WorkerStage.drains]
  · next op ok bytes error hw =>
    have ht := fun completion => h.take completion hw
    generalize s.take op = r at hs ht
    obtain ⟨t, found⟩ := r
    cases hs
    obtain rfl : found = true := (ht .stopped).1
    exact (ht _).2
  · next op completion stage hw =>
    obtain ⟨⟨t, next⟩, hcomplete, rfl⟩ := Option.map_eq_some_iff.mp hs
    exact h.complete_worker hw hcomplete
  · next hw =>
    cases hs
    refine h.worker_step rfl rfl (fun op => ?_) (fun op => ?_) fun hleaves => ?_
    · rw [State.due, hw]
      split <;> rfl
    · rw [hw]
      split <;> rfl
    · split at hleaves
      · next hexit => simpa [State.shouldExit] using hexit
      · simp at hleaves
  · next hw =>
    cases hs
    refine h.worker_step rfl rfl (fun op => ?_) (fun op => by rw [hw]; rfl) fun _ => h.leaves (.inl hw)
    rw [State.due, hw]
    rfl
  · cases hs

/-! ## The system -/

/-- An operation is started. -/
theorem Inv.begin (h : Inv s) (hst : (s.ops op).stage = .idle) :
    Inv { s.setStage op .check with started := s.started ++ [op] } := by
  obtain ⟨life, hl⟩ := h.lives op
  have hfits := hl.stage
  rw [hst] at hfits
  have hcheck : Follows (s.setOp op { s.ops op with stage := .check }) op life :=
    hl.goes (.refl life) hl.done hl.completers hfits
  refine h.setOp s.worker (s.started ++ [op]) rfl (fun _ => rfl) (fun _ _ => rfl) h.leaves
    ⟨life, hcheck⟩ trivial (by simp) fun other hne => ?_
  simp [hne]

theorem Inv.step (h : Inv s) {a : Label} (hs : s.step a = some s') : Inv s' := by
  cases a with
  | start op =>
    simp only [State.step, Option.ite_none_right_eq_some, Option.some.injEq] at hs
    obtain ⟨hst, rfl⟩ := hs
    exact h.begin hst
  | advance op c => exact h.advanceStart hs
  | stopToken op =>
    simp only [State.step, Option.ite_none_right_eq_some, Option.some.injEq] at hs
    obtain ⟨-, rfl⟩ := hs
    exact h.setCallback fun _ => id
  | runCallback op =>
    simp only [State.step, Option.ite_none_right_eq_some, Option.some.injEq] at hs
    obtain ⟨⟨-, hcallback⟩, rfl⟩ := hs
    exact h.setCallback fun stage ha => (hcallback ▸ ha).running (by rintro ⟨⟩) (.inl rfl)
  | advanceCallback op c => exact h.advanceCallback hs
  | work => exact h.work hs
  | timeout =>
    simp only [State.step, Option.ite_none_right_eq_some, Option.some.injEq] at hs
    obtain ⟨hw, rfl⟩ := hs
    exact h.worker_step rfl rfl (fun op => by rw [State.due, hw]; rfl) (fun op => by rw [hw]; rfl)
      (by simp)
  | post op ok bytes error =>
    obtain ⟨kernel, hpost, rfl⟩ := Option.map_eq_some_iff.mp hs
    obtain ⟨hobjects, hpackets⟩ := Kernel.post_spec hpost
    exact h.call_step hobjects hpackets (Kernel.outstanding_post hpost) id
  | cancel handle =>
    cases hs
    exact h.cancelIo _ id
  | close =>
    cases hs
    exact h.call_step rfl rfl (fun _ => rfl) fun _ => .inl rfl
  | requestStop =>
    cases hs
    exact h.cancelIo _ fun _ => .inr rfl
  | wake c =>
    simp only [State.step, Option.ite_none_right_eq_some, Option.some.injEq] at hs
    obtain ⟨-, rfl⟩ := hs
    exact Inv.wakeWorker (h.call_step rfl rfl (fun _ => rfl) id) c
  | openHandle handle =>
    simp only [State.step, Option.ite_none_right_eq_some, Option.some.injEq] at hs
    obtain ⟨⟨-, -, hnone⟩, rfl⟩ := hs
    refine h.setObject rfl rfl fun op hop heq => ?_
    have hassociated := h.counts.associated op hop
    rw [heq, Kernel.isAssociated, hnone] at hassociated
    cases hassociated
  | closeHandle handle =>
    simp only [State.step, Option.ite_none_right_eq_some, Option.some.injEq] at hs
    obtain ⟨hidle, rfl⟩ := hs
    exact h.setObject rfl rfl hidle

theorem inv_initial (h : s.IsInitial) : Inv s := by
  obtain ⟨force, requests, rfl⟩ := h
  refine ⟨⟨rfl, fun handle => rfl, ?_, fun op => rfl, rfl⟩, fun handle => ⟨?_, fun _ => rfl⟩,
    fun op => ⟨.undecided, ?_, rfl, rfl, rfl, rfl, rfl⟩, ?_, ?_, ?_⟩
  · simp
  · rintro association ⟨⟩
  · simp
  · simp
  · exact fun _ => rfl
  · simp

theorem reachable_inv (h : Reachable State.step State.IsInitial s) : Inv s :=
  h.preserves (fun _ => inv_initial) fun _ _ _ hp => hp.step

end CCForge.Iocp
