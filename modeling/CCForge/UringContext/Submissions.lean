import CCForge.UringContext.Sections

/-!
# Submissions

The poller takes the queued submissions in order. It publishes an operation or retires it, when its
cancellation was requested or the queue has no room for it.
-/

namespace CCForge.UringContext

variable {s t : State} {op other : Address} {o : Op} {life : Life} {rest : List Address} {c : Choice}

/-! ## What a flush leaves as it is -/

theorem Submits.ops (h : Submits s t) : t.ops = s.ops := by rw [h.rest]

theorem Submits.operations (h : Submits s t) : t.operations = s.operations := by rw [h.rest]

theorem Submits.submissions (h : Submits s t) : t.submissions = s.submissions := by rw [h.rest]

theorem Submits.ready (h : Submits s t) : t.ready = s.ready := by rw [h.rest]

theorem Submits.poller (h : Submits s t) : t.poller = s.poller := by rw [h.rest]

theorem Submits.parkedCancels (h : Submits s t) : t.parkedCancels = s.parkedCancels := by rw [h.rest]

theorem Submits.frame (h : Submits s t)
    (htargets : ∀ other, other ≠ op →
      t.kernel.outstanding (.target other) = s.kernel.outstanding (.target other))
    (hcancels : ∀ other, other ≠ op →
      t.kernel.outstanding (.cancel other) = s.kernel.outstanding (.cancel other)) : Frame s t op where
  ops _ _ := by rw [h.ops]
  operations _ _ := by rw [h.operations]
  submissions _ _ := by rw [h.submissions]
  ready _ _ := by rw [h.ready, h.poller]
  targets := htargets
  cancels := hcancels

/-- A flush alone concerns no operation. -/
theorem Inv.flush (h : Inv s) (e : Entered) : Inv (s.flush e) := by
  have hsubmits := submits_flush s e
  refine h.of_same hsubmits.ops hsubmits.operations hsubmits.submissions ?_ hsubmits.parkedCancels
    (fun _ => outstanding_flush ..) (fun _ => outstanding_flush ..)
    (hsubmits.wakeupOk h.wakeup (outstanding_flush ..))
  rw [hsubmits.ready, hsubmits.poller]

/-! ## A submission -/

/-- The operation is taken from the queue. -/
def State.dequeue (s : State) (op : Address) (rest : List Address) : State :=
  { s with submissions := rest }.setOp op { s.ops op with submissionPending := false }

theorem frame_dequeue (hs : s.submissions = op :: rest) : Frame s (s.dequeue op rest) op where
  ops _ hne := ops_setOp_of_ne hne
  operations _ _ := Iff.rfl
  submissions other hne := by
    rw [hs, List.mem_cons, or_iff_right hne]
    rfl
  ready _ _ := Iff.rfl
  targets _ _ := rfl
  cancels _ _ := rfl

theorem process_eq (s : State) (op : Address) (rest : List Address) (c : Choice) :
    { s with submissions := rest }.process op c =
      if s.stopped = true ∨ (s.ops op).cancelRequested = true then
        ((s.dequeue op rest).setOp op { s.ops op with
          submissionPending := false, cancelRequested := true, result := -ECANCELED }).retireIfDrained op
      else
        match (s.dequeue op rest).submitLocked op c with
        | (t, true) => t
        | (t, false) => (t.setOp op { t.ops op with result := -ENOBUFS }).retireIfDrained op := by
  unfold State.process State.dequeue
  simp only [ops_setOp_self]
  rfl

/-- What a submission that is taken from the queue does, published or not. -/
theorem process_cases (s : State) (op : Address) (rest : List Address) (c : Choice) :
    (∃ o : Op, { s with submissions := rest }.process op c =
        ((s.dequeue op rest).setOp op o).retireIfDrained op ∧
      o = { s.ops op with submissionPending := false, cancelRequested := true, result := -ECANCELED } ∧
      (s.stopped = true ∨ (s.ops op).cancelRequested = true)) ∨
    ∃ t accepted, Submits (s.dequeue op rest) t ∧
      (∀ u, t.kernel.outstanding u =
        s.kernel.outstanding u + if accepted = true ∧ u = .target op then 1 else 0) ∧
      { s with submissions := rest }.process op c = (if accepted = true then t
        else (t.setOp op { t.ops op with result := -ENOBUFS }).retireIfDrained op) ∧
      s.stopped = false ∧ (s.ops op).cancelRequested = false := by
  rw [process_eq]
  split
  · next hskips => exact .inl ⟨_, rfl, rfl, hskips⟩
  · next hgoes =>
    obtain ⟨hgoing, hunrequested⟩ := not_or.mp hgoes
    obtain ⟨t, accepted, heq, hsubmits, houtstanding⟩ := submitLocked_spec (s.dequeue op rest) op c
    refine .inr ⟨t, accepted, hsubmits, houtstanding, ?_, Bool.eq_false_iff.mpr hgoing,
      Bool.eq_false_iff.mpr hunrequested⟩
    rw [heq]
    cases accepted <;> rfl

/-- The submission leaves the other operations as they are. -/
theorem frame_submitted {accepted : Bool} (hs : s.submissions = op :: rest)
    (hsubmits : Submits (s.dequeue op rest) t)
    (houtstanding : ∀ u, t.kernel.outstanding u =
      s.kernel.outstanding u + if accepted = true ∧ u = .target op then 1 else 0) : Frame s t op := by
  refine (frame_dequeue hs).trans (hsubmits.frame (fun other hne => ?_) fun other _ => ?_)
  · rw [houtstanding, if_neg (by rintro ⟨-, ⟨⟩⟩; exact hne rfl), Nat.add_zero]
    rfl
  · rw [houtstanding, if_neg (by rintro ⟨-, ⟨⟩⟩), Nat.add_zero]
    rfl

theorem frame_process (hs : s.submissions = op :: rest) (c : Choice) :
    Frame s ({ s with submissions := rest }.process op c) op := by
  rcases process_cases s op rest c with ⟨o, heq, -⟩ | ⟨t, accepted, hsubmits, houtstanding, heq, -⟩
  · rw [heq]
    exact ((frame_dequeue hs).trans (frame_setOp ..)).trans (frame_retireIfDrained ..)
  · have hothers := frame_submitted hs hsubmits houtstanding
    rw [heq]
    split
    · exact hothers
    · exact (hothers.trans (frame_setOp ..)).trans (frame_retireIfDrained ..)

theorem Follows.queued (hl : Follows s op life) (hmem : op ∈ s.submissions) :
    ∃ requested, life = .queued requested := hl.submissions.mp hmem

/-- A queued operation is drained when it is taken from the queue and not published. -/
theorem OpOk.drained {requested : Bool} (h : OpOk o (.queued requested)) {o' : Op}
    (hpending : o'.pendingCqes = o.pendingCqes) (hsubmission : o'.submissionPending = false)
    (hphase : o'.phase = o.phase) (hretirements : o'.retirements = o.retirements)
    (hresumptions : o'.resumptions = o.resumptions) (hstage : o'.stage = o.stage)
    (htoken : TokenOk o') : Drained o' where
  pendingCqes := hpending.trans h.pendingCqes
  submissionPending := hsubmission
  phase := hphase.trans h.phase
  retirements := hretirements.trans h.retirements
  resumptions := hresumptions.trans h.resumptions
  stage := hstage.trans (h.suspended rfl)
  token := htoken

/-- The operation at the head of the queue is published or retired. -/
theorem Inv.process (h : Inv s) (hs : s.submissions = op :: rest) (c : Choice) :
    Inv ({ s with submissions := rest }.process op c) := by
  obtain ⟨life, hl⟩ := h.lives op
  obtain ⟨requested, rfl⟩ := hl.queued (by rw [hs]; exact List.mem_cons_self)
  have hnodup := h.submissions
  rw [hs, List.nodup_cons] at hnodup
  have hfields := hl.fields
  rcases process_cases s op rest c with
    ⟨o, heq, rfl, -⟩ | ⟨t, accepted, hsubmits, houtstanding, heq, -, hunrequested⟩
  · rw [heq]
    refine h.retire ((frame_dequeue hs).trans (frame_setOp ..)) hl rfl ?_ ?_ rfl rfl rfl rfl hnodup
      ⟨hl.targets, hl.cancels⟩ (h.wakeup.congr Iff.rfl rfl rfl)
    · rw [ops_setOp_self]
      exact hfields.drained rfl rfl rfl rfl rfl rfl
        { hfields.token with requested := fun _ _ => rfl }
    · rw [ops_setOp_self]
  · have hops : t.ops op = { s.ops op with submissionPending := false } := by
      rw [hsubmits.ops]
      exact ops_setOp_self ..
    have hothers := frame_submitted hs hsubmits houtstanding
    have hwakeup : WakeupOk t := by
      refine hsubmits.wakeupOk (h.wakeup.congr Iff.rfl rfl rfl) ?_
      rw [houtstanding, if_neg (by rintro ⟨-, ⟨⟩⟩), Nat.add_zero]
      rfl
    have hcancels : t.kernel.outstanding (.cancel op) = 0 := by
      rw [houtstanding, if_neg (by rintro ⟨-, ⟨⟩⟩), Nat.add_zero]
      exact hl.cancels
    have htargets : t.kernel.outstanding (.target op) = if accepted = true then 1 else 0 := by
      rw [houtstanding, hl.targets]
      simp [Life.targets]
    have hsubmissions : op ∉ t.submissions ∧ t.submissions.Nodup := by
      rw [hsubmits.submissions]
      exact hnodup
    rw [heq]
    cases accepted with
    | true =>
      rw [if_pos rfl]
      refine h.of_frame op (.submitted true .none) hothers ?_ ?_ hsubmissions.2 ?_ ?_ hwakeup
      · constructor
        · rw [hops]
          exact { hfields with
            valid := .inl rfl
            submissionPending := rfl
            cancelRequested := by
              rintro _ ⟨⟩
              exact hunrequested
            stage := hfields.fits rfl (by rintro ⟨⟩) (by rintro ⟨⟩)
            token := { hfields.token with } }
        · rw [hsubmits.operations]
          exact iff_of_true (hl.operations.mpr rfl) rfl
        · refine iff_of_false hsubmissions.1 ?_
          rintro ⟨_, ⟨⟩⟩
        · rw [hsubmits.ready, hsubmits.poller]
          exact iff_of_false (mt hl.ready.mp (by rintro ⟨⟩)) (by rintro ⟨⟩)
        · exact htargets
        · exact hcancels
      · rw [hsubmits.operations]
        exact h.operations
      · rw [hsubmits.ready, hsubmits.poller]
        exact h.ready
      · refine h.parked.congr hsubmits.parkedCancels fun other => ?_
        by_cases he : other = op
        · subst he
          rw [hops]
        · rw [hothers.ops other he]
    | false =>
      rw [if_neg (by rintro ⟨⟩)]
      refine h.retire (hothers.trans (frame_setOp ..)) hl rfl ?_ ?_ hsubmits.operations hsubmits.ready ?_
        hsubmits.parkedCancels hsubmissions ⟨htargets, hcancels⟩ (hwakeup.congr Iff.rfl rfl rfl)
      · rw [ops_setOp_self, hops]
        exact hfields.drained rfl rfl rfl rfl rfl rfl { hfields.token with }
      · rw [ops_setOp_self, hops]
      · exact congrArg PollerStage.batch hsubmits.poller

end CCForge.UringContext
