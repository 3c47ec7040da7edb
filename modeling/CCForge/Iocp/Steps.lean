import CCForge.Iocp.Sections

/-!
# The steps keep the invariant

A step touches the life of one operation at most. The frame lemmas say what remains of the others,
and the cases of a step say how the one life goes on.
-/

namespace CCForge.Iocp

variable {s s' t : State} {op other : OpId} {handle : Handle} {life life' : Life} {o : Op}
  {worker : WorkerStage} {c : Choice}

/-! ## Frames -/

theorem Counts.setOp (h : Counts s) (worker : WorkerStage) (hrequest : o.request = (s.ops op).request)
    (hdrains : ∀ other, worker.drains other = s.worker.drains other) :
    Counts { s.setOp op o with worker := worker } := by
  refine h.congr rfl rfl (fun handle => rfl) (fun other => ?_) (fun _ _ => id) (fun other => ?_) rfl
  · by_cases he : other = op
    · subst he
      simp [State.handleOf, State.setOp, hrequest]
    · simp [State.handleOf, State.setOp, he]
  · simp only [State.due, hdrains]
    rfl

/-- A step that touches no operation and no record. -/
theorem Inv.frame (h : Inv s) (hcounts : Counts s') (hmodes : ∀ handle, ModeAt s' handle)
    (hrecords : s'.pendingRecords = s.pendingRecords) (hpackets : s'.kernel.packets = s.kernel.packets)
    (hops : s'.ops = s.ops) (hserves : ∀ op, s'.worker.serves op = s.worker.serves op)
    (hstarted : s'.started = s.started)
    (hleaves : s'.worker = .leaving ∨ s'.worker = .exited →
      (s'.closed ∨ s'.stopped) ∧ s'.pending = 0) :
    Inv s' where
  counts := hcounts
  modes := hmodes
  lives op := by
    obtain ⟨life, hl⟩ := h.lives op
    refine ⟨life, ?_, ?_, ?_, ?_, ?_, ?_⟩
    · rw [hrecords]
      exact hl.pending
    · rw [hpackets]
      exact hl.packets
    · rw [hops]
      exact hl.done
    · rw [hops]
      exact hl.completers
    · rw [hserves]
      exact hl.served
    · rw [hops]
      exact hl.stage
  leaves := hleaves
  callbacks := by
    rw [hops]
    exact h.callbacks
  started := by
    rw [hops, hstarted]
    exact h.started

/-- The life of another operation goes on as it was. -/
theorem Follows.of_ne (h : Follows s other life) (hne : other ≠ op)
    (hserves : worker.serves other = s.worker.serves other) :
    Follows { s.setOp op o with worker := worker } other life := by
  have hop : (s.setOp op o).ops other = s.ops other := Function.update_of_ne hne ..
  refine ⟨h.pending, h.packets, ?_, ?_, hserves.trans h.served, ?_⟩
  all_goals simp only [hop]
  · exact h.done
  · exact h.completers
  · exact h.stage

/-- The steps of the life that need no packet. -/
def Life.Goes (life life' : Life) : Prop :=
  (life' = .accepted ↔ life = .accepted) ∧ life'.packets = life.packets ∧ life'.served = life.served

theorem Follows.goes (h : Follows s op life) (hgoes : life.Goes life') (hdone : o.done = life'.done)
    (hcompleters : o.completions.map Prod.fst = life'.completers) (hstage : o.stage.Fits life') :
    Follows (s.setOp op o) op life' := by
  obtain ⟨haccepted, hpackets, hserved⟩ := hgoes
  have hop : (s.setOp op o).ops op = o := Function.update_self ..
  refine ⟨h.pending.trans haccepted.symm, h.packets.trans hpackets.symm, ?_, ?_,
    h.served.trans hserved.symm, ?_⟩
  all_goals rw [hop]
  · exact hdone
  · exact hcompleters
  · exact hstage

theorem Stage.Admits.of_ne {stage : Stage} {callback : Callback} (hidle : stage ≠ .idle)
    (hinstalling : stage ≠ .installing) : stage.Admits callback := by
  cases stage with
  | idle => exact absurd rfl hidle
  | installing => exact absurd rfl hinstalling
  | _ => trivial

/-- A step of one operation, to which the worker may take part. -/
theorem Inv.setOp (h : Inv s) (worker : WorkerStage) (started : List OpId)
    (hrequest : o.request = (s.ops op).request)
    (hdrains : ∀ other, worker.drains other = s.worker.drains other)
    (hserves : ∀ other, other ≠ op → worker.serves other = s.worker.serves other)
    (hleaves : worker = .leaving ∨ worker = .exited → (s.closed ∨ s.stopped) ∧ s.pending = 0)
    (hlife : ∃ life, Follows { s.setOp op o with worker := worker } op life)
    (hcallback : o.stage.Admits o.callback)
    (hself : op ∈ started ↔ o.stage ≠ .idle)
    (hothers : ∀ other, other ≠ op → (other ∈ started ↔ other ∈ s.started)) :
    Inv { s.setOp op o with worker := worker, started := started } where
  counts := by
    have hcounts := h.counts.setOp worker hrequest hdrains
    exact ⟨hcounts.pending, hcounts.active, hcounts.associated, hcounts.due, hcounts.matched⟩
  modes handle := ⟨(h.modes handle).mode, (h.modes handle).fresh⟩
  lives other := by
    by_cases he : other = op
    · subst he
      obtain ⟨life, hl⟩ := hlife
      exact ⟨life, hl.pending, hl.packets, hl.done, hl.completers, hl.served, hl.stage⟩
    · obtain ⟨life, hl⟩ := h.lives other
      have hl' := hl.of_ne (o := o) he (hserves other he)
      exact ⟨life, hl'.pending, hl'.packets, hl'.done, hl'.completers, hl'.served, hl'.stage⟩
  leaves := hleaves
  callbacks other := by
    by_cases he : other = op
    · subst he
      simp only [State.setOp, Function.update_self]
      exact hcallback
    · simp only [State.setOp, Function.update_of_ne he]
      exact h.callbacks other
  started other := by
    by_cases he : other = op
    · subst he
      simp only [State.setOp, Function.update_self]
      exact hself
    · simp only [State.setOp, Function.update_of_ne he]
      exact (hothers other he).trans (h.started other)

/-- A step of the start or of the callback of an operation. -/
theorem Inv.goes (h : Inv s) (hrequest : o.request = (s.ops op).request)
    (hlife : ∃ life life', Follows s op life ∧ life.Goes life' ∧ o.done = life'.done ∧
      o.completions.map Prod.fst = life'.completers ∧ o.stage.Fits life')
    (hcallback : o.stage.Admits o.callback)
    (hidle : o.stage ≠ .idle ↔ (s.ops op).stage ≠ .idle) : Inv (s.setOp op o) := by
  obtain ⟨life, life', hl, hgoes, hdone, hcompleters, hstage⟩ := hlife
  exact h.setOp s.worker s.started hrequest (fun _ => rfl) (fun _ _ => rfl) h.leaves
    ⟨life', hl.goes hgoes hdone hcompleters hstage⟩ hcallback ((h.started op).trans hidle.symm)
    fun _ _ => Iff.rfl

/-! ## The kernel -/

/-- The kernel goes on without a new packet, and the context may be closed or stopped. -/
theorem Inv.kernel_step (h : Inv s) {kernel : Kernel} {closed stopped : Bool} {wakesDue : ℕ}
    (hmodes : ∀ handle, ModeAt { s with kernel := kernel } handle)
    (hassociated : ∀ op ∈ s.pendingRecords, s.kernel.isAssociated (s.handleOf op) = true →
      kernel.isAssociated (s.handleOf op) = true)
    (hpackets : kernel.packets = s.kernel.packets)
    (houtstanding : ∀ op, kernel.outstanding op = s.kernel.outstanding op)
    (hclosed : s.closed = true ∨ s.stopped = true → closed = true ∨ stopped = true) :
    Inv { s with kernel := kernel, closed := closed, stopped := stopped, wakesDue := wakesDue } := by
  refine h.frame ?_ (fun handle => ⟨(hmodes handle).mode, (hmodes handle).fresh⟩) rfl hpackets rfl
    (fun _ => rfl) rfl fun hw => ⟨hclosed (h.leaves hw).1, (h.leaves hw).2⟩
  refine h.counts.congr rfl rfl (fun _ => rfl) (fun _ => rfl) hassociated (fun op => ?_) rfl
  simp only [State.due, houtstanding]

/-- A call that leaves the objects as they are. -/
theorem Inv.call_step (h : Inv s) {kernel : Kernel} {closed stopped : Bool} {wakesDue : ℕ}
    (hobjects : kernel.objects = s.kernel.objects) (hpackets : kernel.packets = s.kernel.packets)
    (houtstanding : ∀ op, kernel.outstanding op = s.kernel.outstanding op)
    (hclosed : s.closed = true ∨ s.stopped = true → closed = true ∨ stopped = true) :
    Inv { s with kernel := kernel, closed := closed, stopped := stopped, wakesDue := wakesDue } := by
  refine h.kernel_step (fun handle => (h.modes handle).congr ?_ ?_) ?_ hpackets houtstanding hclosed
  · exact fun association ha => ⟨association, ha, rfl⟩
  · exact congrFun hobjects handle
  · intro op _ hassociated
    rwa [Kernel.isAssociated_congr (congrFun hobjects _)]

theorem Inv.cancelIo (h : Inv s) {closed stopped : Bool} {wakesDue : ℕ} (p : OpId → Bool)
    (hclosed : s.closed = true ∨ s.stopped = true → closed = true ∨ stopped = true) :
    Inv { s with
      kernel := s.kernel.cancelIo p, closed := closed, stopped := stopped, wakesDue := wakesDue } :=
  h.call_step rfl rfl (fun op => s.kernel.outstanding_cancelIo p op) hclosed

theorem Inv.cancelRecord (h : Inv s) (target : OpId) : Inv (s.cancelRecord target).1 := by
  unfold State.cancelRecord
  split
  · exact h.cancelIo _ id
  · exact h

@[simp] theorem ops_cancelRecord (s : State) (target : OpId) : (s.cancelRecord target).1.ops = s.ops := by
  unfold State.cancelRecord
  split <;> rfl

theorem Inv.wakeWorker (h : Inv s) (c : Choice) : Inv (s.wakeWorker c) := by
  refine h.call_step ?_ ?_ (fun op => s.kernel.outstanding_postWake c.wakes op) id
  all_goals
    unfold Kernel.postWake
    split <;> rfl

/-- A handle without pending records is closed, or names a new object. -/
theorem Inv.setObject (h : Inv s) {object : Option Object}
    (hassociated : object.any Object.associated = false) (hskips : object.any Object.skips = false)
    (hidle : ∀ op ∈ s.pendingRecords, s.handleOf op ≠ handle) :
    Inv { s with kernel := s.kernel.setObject handle object } := by
  refine h.kernel_step (fun other => ?_) (fun op hop hassociated => ?_) rfl (fun _ => rfl) id
  · by_cases he : other = handle
    · subst he
      constructor <;> simp [Kernel.isAssociated, Kernel.skips, Kernel.setObject, hassociated, hskips]
    · exact (h.modes other).congr (fun association ha => ⟨association, ha, rfl⟩)
        (Function.update_of_ne he ..)
  · rwa [Kernel.isAssociated_congr (Function.update_of_ne (hidle op hop) ..)]

/-! ## The start -/

theorem setStage_setOp (s : State) (op : OpId) (o : Op) (stage : Stage) :
    (s.setOp op o).setStage op stage = s.setOp op { o with stage := stage } := by
  simp [State.setStage, State.setOp]

/-- A step of the start that does not touch the record. -/
theorem Inv.setStage (h : Inv s) {stage : Stage}
    (hlife : ∀ life, (s.ops op).stage.Fits life → Follows s op life →
      ∃ life', life.Goes life' ∧ life'.done = life.done ∧ life'.completers = life.completers ∧
        stage.Fits life')
    (hnot : stage ≠ .idle ∧ stage ≠ .installing ∧ (s.ops op).stage ≠ .idle) :
    Inv (s.setStage op stage) := by
  obtain ⟨life, hl⟩ := h.lives op
  obtain ⟨life', hgoes, hdone, hcompleters, hstage⟩ := hlife life hl.stage hl
  refine h.goes rfl ⟨life, life', hl, hgoes, hl.done.trans hdone.symm,
    hl.completers.trans hcompleters.symm, hstage⟩ (.of_ne hnot.1 hnot.2.1) ?_
  simp [hnot]

/-- The record is registered, and the operation is accepted. -/
theorem Inv.register (h : Inv s) (hop : op ∉ s.pendingRecords) (hst : (s.ops op).stage = .locked)
    (hr : Registers s op s') : Inv (s'.setStage op .accepted) := by
  obtain ⟨life, hl⟩ := h.lives op
  obtain rfl : life = .undecided := by
    have hfits := hl.stage
    rwa [hst] at hfits
  have hpackets : s'.kernel.packets = Function.update s.kernel.packets op (s.kernel.packets op + 1) := by
    rw [hr.kernel]
  have hworker : s'.worker = s.worker := by rw [hr.rest]
  have hof : ∀ other, other ≠ op → (s'.setStage op .accepted).ops other = s.ops other := by
    intro other hne
    simp [State.setStage, State.setOp, hr.ops, hne]
  have hself : (s'.setStage op .accepted).ops op = { s.ops op with stage := .accepted } := by
    simp [State.setStage, State.setOp, hr.ops]
  refine ⟨(hr.counts h.counts hop).setOp s'.worker rfl fun _ => rfl, fun handle => ?_,
    fun other => ?_, fun hw => ?_, fun other => ?_, fun other => ?_⟩
  · exact ⟨(hr.modeAt (h.modes handle)).mode, (hr.modeAt (h.modes handle)).fresh⟩
  · by_cases he : other = op
    · subst he
      refine ⟨.accepted, ?_, ?_, ?_, ?_, ?_, ?_⟩
      · simp [State.setStage, State.setOp, hr.pendingRecords]
      · change s'.kernel.packets other = 1
        rw [hpackets, Function.update_self, hl.packets]
        rfl
      · rw [hself]
        exact hl.done
      · rw [hself]
        exact hl.completers
      · change s'.worker.serves other = none
        rw [hworker]
        exact hl.served
      · rw [hself]
        rfl
    · obtain ⟨life, hl⟩ := h.lives other
      refine ⟨life, ?_, ?_, ?_, ?_, ?_, ?_⟩
      · change other ∈ s'.pendingRecords ↔ _
        rw [hr.pendingRecords, Finset.mem_insert, or_iff_right he]
        exact hl.pending
      · change s'.kernel.packets other = _
        rw [hpackets, Function.update_of_ne he]
        exact hl.packets
      · rw [hof other he]
        exact hl.done
      · rw [hof other he]
        exact hl.completers
      · change s'.worker.serves other = _
        rw [hworker]
        exact hl.served
      · rw [hof other he]
        exact hl.stage
  · -- The worker is there as long as the context takes records.
    change s'.worker = _ ∨ s'.worker = _ at hw
    rw [hworker] at hw
    have hclosed := (h.leaves hw).1
    rw [hr.running.1, hr.running.2] at hclosed
    simp at hclosed
  · by_cases he : other = op
    · subst he
      rw [hself]
      trivial
    · rw [hof other he]
      exact h.callbacks other
  · have hstarted : (s'.setStage op .accepted).started = s.started := by
      change s'.started = _
      rw [hr.rest]
    rw [hstarted, h.started]
    by_cases he : other = op
    · subst he
      simp [hself, hst]
    · rw [hof other he]

/-- Before the section, the record is not there. -/
theorem Inv.notMem_of_locked (h : Inv s) (hst : (s.ops op).stage = .locked) : op ∉ s.pendingRecords := by
  obtain ⟨life, hl⟩ := h.lives op
  have hfits := hl.stage
  rw [hst] at hfits
  rw [hl.pending, show life = .undecided from hfits]
  rintro ⟨⟩

theorem Inv.prepared (h : Inv s) (hp : Prepared s t) : Inv t := by
  obtain ⟨⟨objects, entries, rfl⟩, hcounts, hmodes⟩ := hp
  exact h.frame hcounts hmodes rfl rfl rfl (fun _ => rfl) rfl h.leaves

/-- A start that is refused completes the operation itself. -/
theorem afterStart_of_refused {result : Option StartResult} (h : result ≠ some .accepted) :
    ∃ completion, State.afterStart result = .completing completion .claim := by
  cases result with
  | none => exact ⟨_, rfl⟩
  | some result =>
    cases result with
    | accepted => exact absurd rfl h
    | value bytes => exact ⟨_, rfl⟩
    | stopped => exact ⟨_, rfl⟩
    | error failure => exact ⟨_, rfl⟩

/-- The section of the start decides the life of the operation. -/
theorem Inv.start (h : Inv s) (hst : (s.ops op).stage = .locked) {result : Option StartResult}
    (hs : s.start op c = some (s', result)) : Inv (s'.setStage op (State.afterStart result)) := by
  have hop := h.notMem_of_locked hst
  obtain ⟨t, hp, ⟨hrefused, rfl⟩ | ⟨rfl, hr⟩⟩ := start_spec h.counts h.modes hop hs
  · have hst' : (s'.ops op).stage = .locked := by
      obtain ⟨-, -, rfl⟩ := hp.associates
      exact hst
    obtain ⟨completion, hafter⟩ := afterStart_of_refused hrefused
    rw [hafter]
    refine (h.prepared hp).setStage (fun life hfits hl => ?_) (by simp [hst'])
    rw [hst'] at hfits
    cases hfits
    exact ⟨.refused false, by simp [Life.Goes, Life.packets, Life.served], rfl, rfl, rfl⟩
  · have heq : t.ops op = s.ops op := by
      obtain ⟨-, -, rfl⟩ := hp.associates
      rfl
    have hop' : op ∉ t.pendingRecords := by
      obtain ⟨-, -, rfl⟩ := hp.associates
      exact hop
    exact (h.prepared hp).register hop' (by rw [heq, hst]) hr

/-- The stages of a `complete_*`, and where it goes on. -/
theorem complete_cases {party : Party} {completion : Completion} {stage : CompleteStage}
    {next : Option CompleteStage} (hs : s.complete op party completion stage = some (t, next)) :
    (stage = .claim ∧ (s.ops op).done = true ∧ t = s ∧ next = none) ∨
    (stage = .claim ∧ (s.ops op).done = false ∧ t = s.setOp op { s.ops op with done := true } ∧
      next = some .teardown) ∨
    (stage = .teardown ∧ t = s.setOp op { s.ops op with callback := .absent } ∧
      next = some .receiver) ∨
    (stage = .receiver ∧ next = none ∧
      t = s.setOp op { s.ops op with completions := (s.ops op).completions ++ [(party, completion)] }) := by
  cases stage with
  | claim =>
    simp only [State.complete] at hs
    split at hs
    · next hdone =>
      cases hs
      exact .inl ⟨rfl, hdone, rfl, rfl⟩
    · next hdone =>
      cases hs
      exact .inr (.inl ⟨rfl, by simpa using hdone, rfl, rfl⟩)
  | teardown =>
    simp only [State.complete] at hs
    split at hs
    · cases hs
    · cases hs
      exact .inr (.inr (.inl ⟨rfl, rfl, rfl⟩))
  | receiver =>
    cases hs
    exact .inr (.inr (.inr ⟨rfl, rfl, rfl⟩))

/-- The start completes the operation that was refused. -/
theorem Inv.complete_start (h : Inv s) {completion : Completion} {stage : CompleteStage}
    {next : Option CompleteStage} (hst : (s.ops op).stage = .completing completion stage)
    (hs : s.complete op .start completion stage = some (t, next)) :
    Inv (t.setStage op (next.elim .returned (.completing completion))) := by
  obtain ⟨life, hl⟩ := h.lives op
  obtain rfl : life = .refused stage.claimed := by
    have hfits := hl.stage
    rwa [hst] at hfits
  have hdone := hl.done
  rcases complete_cases hs with
    ⟨rfl, hclaimed, -, -⟩ | ⟨rfl, -, rfl, rfl⟩ | ⟨rfl, rfl, rfl⟩ | ⟨rfl, rfl, rfl⟩
  · rw [hclaimed] at hdone
    cases hdone
  · rw [setStage_setOp]
    exact h.goes rfl ⟨_, .refused true, hl, by simp [Life.Goes, Life.packets, Life.served], rfl,
      hl.completers, rfl⟩ trivial (by simp [hst])
  · rw [setStage_setOp]
    exact h.goes rfl ⟨_, .refused true, hl, by simp [Life.Goes, Life.packets, Life.served], hl.done,
      hl.completers, rfl⟩ trivial (by simp [hst])
  · rw [setStage_setOp]
    refine h.goes rfl ⟨_, .completed .start, hl, by simp [Life.Goes, Life.packets, Life.served], hl.done,
      ?_, .inr rfl⟩ trivial (by simp [hst])
    rw [List.map_append, hl.completers]
    rfl

theorem Life.Goes.refl (life : Life) : life.Goes life := ⟨Iff.rfl, rfl, rfl⟩

/-- A step of the start within the same life. -/
theorem Inv.setStage_same (h : Inv s) {stage : Stage}
    (hfits : ∀ life, (s.ops op).stage.Fits life → stage.Fits life)
    (hnot : stage ≠ .idle ∧ stage ≠ .installing ∧ (s.ops op).stage ≠ .idle) :
    Inv (s.setStage op stage) :=
  h.setStage (fun life hf _ => ⟨life, .refl life, rfl, rfl, hfits life hf⟩) hnot

/-- The start refuses an operation that was undecided. -/
theorem Inv.refuse (h : Inv s) {completion : Completion}
    (hundecided : ∀ life, (s.ops op).stage.Fits life → life = .undecided)
    (hnot : (s.ops op).stage ≠ .idle) :
    Inv (s.setStage op (.completing completion .claim)) := by
  refine h.setStage (fun life hfits _ => ?_) (by simp [hnot])
  obtain rfl := hundecided life hfits
  exact ⟨.refused false, by simp [Life.Goes, Life.packets, Life.served], rfl, rfl, rfl⟩

theorem Inv.install (h : Inv s) (hst : (s.ops op).stage = .install) {callback : Callback}
    {stage : Stage} (hstage : stage = .installing ∧ callback = .storing ∨ stage = .locked) :
    Inv (s.setOp op { s.ops op with callback := callback, stage := stage }) := by
  obtain ⟨life, hl⟩ := h.lives op
  have hfits := hl.stage
  rw [hst] at hfits
  refine h.goes rfl ⟨life, life, hl, .refl life, hl.done, hl.completers, ?_⟩ ?_ ?_
  · rcases hstage with ⟨rfl, -⟩ | rfl
    · exact hfits
    · exact hfits
  · rcases hstage with ⟨rfl, rfl⟩ | rfl
    · exact .inl rfl
    · trivial
  · rcases hstage with ⟨rfl, -⟩ | rfl <;> simp [hst]

theorem Inv.advanceStart (h : Inv s) (hs : s.advanceStart op c = some s') : Inv s' := by
  unfold State.advanceStart at hs
  dsimp only at hs
  split at hs
  · cases hs
  · next hst =>
    have hundecided : ∀ life, (s.ops op).stage.Fits life → life = .undecided := by
      intro life hfits
      rwa [hst] at hfits
    split_ifs at hs <;> cases hs
    · exact h.refuse hundecided (by simp [hst])
    · exact h.refuse hundecided (by simp [hst])
    · exact h.setStage_same hundecided (by simp [hst])
  · next hst =>
    have hundecided : ∀ life, (s.ops op).stage.Fits life → life = .undecided := by
      intro life hfits
      rwa [hst] at hfits
    split_ifs at hs with hdone hthrows hpossible hstopped <;> cases hs
    · -- Nobody has claimed an operation that is undecided.
      obtain ⟨life, hl⟩ := h.lives op
      obtain rfl := hundecided life hl.stage
      rw [hl.done] at hdone
      cases hdone
    · exact h.refuse hundecided (by simp [hst])
    · exact h.install hst (.inl ⟨rfl, rfl⟩)
    · exact h.install hst (.inr rfl)
    · exact h.setStage_same hundecided (by simp [hst])
  · next hst =>
    split at hs
    · cases hs
      exact h.setStage_same (by simp [hst, Stage.Fits]) (by simp [hst])
    · cases hs
  · next hst =>
    obtain ⟨⟨t, result⟩, hstart, rfl⟩ := Option.map_eq_some_iff.mp hs
    exact h.start hst hstart
  · next hst =>
    cases hs
    refine h.setStage_same (fun life hfits => ?_) (by split <;> simp [hst])
    rw [hst] at hfits
    split
    · exact hfits
    · exact .inl hfits
  · next hst =>
    cases hs
    have hst' : ((s.cancelRecord op).1.ops op).stage = .cancelling := by rw [ops_cancelRecord, hst]
    refine (h.cancelRecord op).setStage_same (fun life hfits => ?_) (by split <;> simp [hst])
    rw [hst'] at hfits
    split
    · exact hfits
    · exact .inl hfits
  · next hst =>
    cases hs
    refine (h.wakeWorker c).setStage_same (fun life hfits => ?_) (by simp [State.wakeWorker, hst])
    change (s.ops op).stage.Fits life at hfits
    rw [hst] at hfits
    exact .inl hfits
  · next completion stage hst =>
    obtain ⟨⟨t, next⟩, hcomplete, rfl⟩ := Option.map_eq_some_iff.mp hs
    exact h.complete_start hst hcomplete
  · cases hs

/-! ## The callback -/

/-- A callback that is there goes on. -/
theorem Stage.Admits.running {stage : Stage} {old callback : Callback} (h : stage.Admits old)
    (hold : old ≠ .absent) (hnew : callback.runs = true ∨ callback = .spent) :
    stage.Admits callback := by
  cases stage with
  | idle => exact absurd h hold
  | installing => exact hnew
  | _ => trivial

/-- A step that sets the callback or requests the stop, within the same life. -/
theorem Inv.setCallback (h : Inv s) {callback : Callback} {tokenStopped stopRequested : Bool}
    (hcallback : ∀ stage : Stage, stage.Admits (s.ops op).callback → stage.Admits callback) :
    Inv (s.setOp op { s.ops op with
      callback := callback, tokenStopped := tokenStopped, stopRequested := stopRequested }) := by
  obtain ⟨life, hl⟩ := h.lives op
  exact h.goes rfl ⟨life, life, hl, .refl life, hl.done, hl.completers, hl.stage⟩
    (hcallback _ (h.callbacks op)) Iff.rfl

theorem Inv.advanceCallback (h : Inv s) (hs : s.advanceCallback op c = some s') : Inv s' := by
  unfold State.advanceCallback at hs
  split at hs
  · next hcallback =>
    cases hs
    exact h.setCallback fun stage ha => (hcallback ▸ ha).running (by rintro ⟨⟩) (.inl rfl)
  · next hcallback =>
    cases hs
    refine (h.cancelRecord op).setCallback fun stage ha => ?_
    rw [ops_cancelRecord, hcallback] at ha
    refine ha.running (by rintro ⟨⟩) ?_
    split
    · exact .inl rfl
    · exact .inr rfl
  · next hcallback =>
    cases hs
    refine (h.wakeWorker c).setCallback fun stage ha => ?_
    change stage.Admits (s.ops op).callback at ha
    exact (hcallback ▸ ha).running (by rintro ⟨⟩) (.inr rfl)
  · cases hs

end CCForge.Iocp
