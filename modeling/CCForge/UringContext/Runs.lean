import CCForge.UringContext.Steps

/-!
# Whole runs

A request is not taken back while the operation is registered, a stopped context has requested the
cancellation of all operations, and the poller leaves a context with nothing to do.
-/

namespace CCForge.UringContext

variable {s s' t : State} {op : Address} {o o' o'' : Op} {c : Choice} {a : Label}

/-! ## One operation -/

/-- What a step keeps of an operation. -/
structure Carries (o o' : Op) : Prop where
  registered : o'.registered = true → o.registered = true
  requested : o.cancelRequested = true → o'.cancelRequested = true
  phase : o.phase ≠ .starting → o'.phase ≠ .starting
  token : o.tokenStopped = true → o'.tokenStopped = true

theorem Carries.refl (o : Op) : Carries o o := ⟨id, id, id, id⟩

theorem Carries.trans (h : Carries o o') (h' : Carries o' o'') : Carries o o'' :=
  ⟨fun hr => h.registered (h'.registered hr), fun hr => h'.requested (h.requested hr),
    fun hp => h'.phase (h.phase hp), fun ht => h'.token (h.token ht)⟩

theorem Keeps.carries (h : Keeps s t) (op : Address) : Carries (s.ops op) (t.ops op) := by
  refine ⟨h.registered op, h.requested op, h.phase op, fun htoken => ?_⟩
  rw [← htoken]
  exact congrArg (fun caller => caller.2.2) (h.caller op)

theorem carries_setOp (h : Carries (s.ops op) o) (other : Address) :
    Carries (s.ops other) ((s.setOp op o).ops other) := by
  by_cases he : other = op
  · subst he
    rw [ops_setOp_self]
    exact h
  · rw [ops_setOp_of_ne he]
    exact .refl _

theorem advance_cases (hs : s.advance op = some s') :
    (s' = s.accept op ∧ ¬s.refuses op ∧ (s.ops op).stage = .submitting) ∨
    ∃ o, s' = s.setOp op o ∧ Carries (s.ops op) o := by
  cases hst : (s.ops op).stage with
  | idle => simp [State.advance, hst] at hs
  | check =>
    simp only [State.advance, hst] at hs
    split at hs
    · cases hs
      exact .inr ⟨_, rfl, id, id, id, id⟩
    · split at hs
      all_goals
        cases hs
        exact .inr ⟨_, rfl, id, id, id, id⟩
  | install =>
    simp only [State.advance, hst] at hs
    split at hs
    · split at hs
      all_goals
        cases hs
        exact .inr ⟨_, rfl, id, id, id, id⟩
    · cases hs
      exact .inr ⟨_, rfl, id, id, id, id⟩
  | installing =>
    simp only [State.advance, hst] at hs
    split at hs
    · cases hs
      exact .inr ⟨_, rfl, id, id, id, id⟩
    · cases hs
  | submitting =>
    rcases advance_submitting hst with ⟨heq, -⟩ | ⟨heq, hgoes⟩
    · rw [heq] at hs
      cases hs
      exact .inr ⟨_, rfl, id, id, id, id⟩
    · rw [heq] at hs
      cases hs
      exact .inl ⟨rfl, hgoes, rfl⟩
  | refused =>
    simp only [State.advance, hst] at hs
    split at hs
    · cases hs
    · cases hs
      exact .inr ⟨_, rfl, id, id, id, id⟩
  | suspended => simp [State.advance, hst] at hs
  | resuming =>
    simp only [State.advance, hst] at hs
    split at hs
    · cases hs
    · cases hs
      exact .inr ⟨_, rfl, id, id, id, id⟩
  | finished => simp [State.advance, hst] at hs

/-- The poller neither closes nor stops the context, and registers no operation. -/
structure Polls (s s' : State) : Prop where
  closed : s'.closed = s.closed
  stopped : s'.stopped = s.stopped
  carries : ∀ op, Carries (s.ops op) (s'.ops op)

theorem poll_polls (hs : s.poll c = some s') : Polls s s' := by
  cases hp : s.poller with
  | starting =>
    simp only [State.poll, hp] at hs
    cases hs
    exact ⟨rfl, rfl, fun _ => .refl _⟩
  | submitting =>
    simp only [State.poll, hp] at hs
    cases hs
    have hkeeps := (keeps_processSubmissions s c s.submissions).trans (submits_flush _ c.flush).keeps
    exact ⟨hkeeps.closed, hkeeps.stopped, hkeeps.carries⟩
  | waiting =>
    simp only [State.poll, hp] at hs
    split at hs
    all_goals
      cases hs
      exact ⟨rfl, rfl, fun _ => .refl _⟩
  | scanning retry =>
    simp only [State.poll, hp] at hs
    cases hs
    exact ⟨rfl, rfl, fun _ => .refl _⟩
  | draining left retry =>
    cases left with
    | zero =>
      simp only [State.poll, hp] at hs
      cases hs
      exact ⟨rfl, rfl, fun _ => .refl _⟩
    | succ left =>
      simp only [State.poll, hp] at hs
      split at hs
      · cases hs
      · next completion cq hcq =>
        cases hs
        have hkeeps := keeps_complete { s with
          kernel := { s.kernel with cq := cq }, poller := .draining left retry } completion
        exact ⟨hkeeps.closed, hkeeps.stopped, hkeeps.carries⟩
  | resuming batch retry =>
    cases batch with
    | cons op batch =>
      simp only [State.poll, hp] at hs
      cases hs
      exact ⟨rfl, rfl, carries_setOp ⟨id, id, id, id⟩⟩
    | nil =>
      simp only [State.poll, hp] at hs
      have hkeeps := keeps_retryParkedCancels s c.flush
      generalize s.retryParkedCancels c.flush = t at hs hkeeps
      have hwake : Keeps s (if t.wakeupNeeded then t.submitWakeup else t) := by
        split
        · exact hkeeps.trans (keeps_submitWakeup t)
        · exact hkeeps
      generalize (if t.wakeupNeeded then t.submitWakeup else t) = u at hs hwake
      split at hs
      all_goals
        cases hs
        exact ⟨hwake.closed, hwake.stopped, hwake.carries⟩
  | exited => simp [State.poll, hp] at hs

theorem keeps_requestStop (s : State) : Keeps { s with stopped := true } s.requestStop :=
  (keeps_cancelAll ..).trans (keeps_submitWakeup _)

theorem keeps_shutdown (s : State) : Keeps { s with closed := true, stopped := true } s.shutdown :=
  (keeps_cancelAll ..).trans (keeps_submitWakeup _)

theorem keeps_close (s : State) : Keeps { s with closed := true } s.close := keeps_submitWakeup _

/-- An operation is created, accepted, or keeps what it has. -/
theorem step_cases (hs : s.step a = some s') (op : Address) :
    (∃ awaitable, a = .create op awaitable ∧ s' = s.setOp op { awaitable := awaitable } ∧
      ((s.ops op).stage = .idle ∨ (s.ops op).stage = .finished)) ∨
    (s' = s.accept op ∧ ¬s.refuses op ∧ (s.ops op).stage = .submitting) ∨
    Carries (s.ops op) (s'.ops op) := by
  cases a with
  | create op' awaitable =>
    simp only [State.step] at hs
    split at hs
    · next hstage =>
      cases hs
      by_cases he : op = op'
      · subst he
        exact .inl ⟨awaitable, rfl, rfl, hstage⟩
      · rw [ops_setOp_of_ne he]
        exact .inr (.inr (.refl _))
    · cases hs
  | await op' =>
    simp only [State.step] at hs
    split at hs
    · cases hs
      refine .inr (.inr (carries_setOp ?_ op))
      exact ⟨id, id, id, id⟩
    · cases hs
  | advance op' =>
    rcases advance_cases hs with ⟨rfl, hgoes, hstage⟩ | ⟨o, rfl, hcarries⟩
    · by_cases he : op = op'
      · subst he
        exact .inr (.inl ⟨rfl, hgoes, hstage⟩)
      · rw [State.accept, ops_setOp_of_ne he]
        exact .inr (.inr (.refl _))
    · exact .inr (.inr (carries_setOp hcarries op))
  | stopToken op' =>
    simp only [State.step] at hs
    split at hs
    · cases hs
      refine .inr (.inr (carries_setOp ?_ op))
      exact ⟨id, id, id, fun _ => rfl⟩
    · cases hs
  | runCallback op' =>
    simp only [State.step] at hs
    split at hs
    · cases hs
      refine .inr (.inr (carries_setOp ?_ op))
      exact ⟨id, id, id, id⟩
    · cases hs
  | requestCancel op' =>
    simp only [State.step] at hs
    split at hs
    · cases hs
      right
      right
      refine ((keeps_requestCancel s op').carries op).trans (carries_setOp ?_ op)
      exact ⟨id, id, id, id⟩
    · cases hs
  | close =>
    cases hs
    exact .inr (.inr ((keeps_close s).carries op))
  | requestStop =>
    cases hs
    exact .inr (.inr ((keeps_requestStop s).carries op))
  | shutdown =>
    cases hs
    exact .inr (.inr ((keeps_shutdown s).carries op))
  | poll c => exact .inr (.inr ((poll_polls hs).carries op))
  | post userData res =>
    obtain ⟨k, -, rfl⟩ := Option.map_eq_some_iff.mp hs
    exact .inr (.inr (.refl _))

theorem Inv.submitting (h : Inv s) (hstage : (s.ops op).stage = .submitting) :
    (s.ops op).phase = .starting := by
  have hl : Follows s op .fresh := by
    refine h.fresh ?_ ?_ ?_ <;> rw [hstage] <;> rintro ⟨⟩
  exact hl.fields.phase

/-- An operation that was accepted is accepted only once, and a request stays. -/
theorem Inv.carries (h : Inv s) (hs : s.step a = some s') (ha : ∀ awaitable, a ≠ .create op awaitable)
    (hphase : (s.ops op).phase ≠ .starting) : Carries (s.ops op) (s'.ops op) := by
  rcases step_cases hs op with ⟨awaitable, heq, -⟩ | ⟨-, -, hstage⟩ | hcarries
  · exact absurd heq (ha awaitable)
  · exact absurd (h.submitting hstage) hphase
  · exact hcarries

/-! ## A stopped context -/

/-- The other steps neither close nor stop the context. -/
theorem step_same (hs : s.step a = some s') (hclose : a ≠ .close) (hstop : a ≠ .requestStop)
    (hshutdown : a ≠ .shutdown) : s'.stopped = s.stopped ∧ s'.closed = s.closed := by
  cases a with
  | advance op =>
    rcases advance_cases hs with ⟨rfl, -⟩ | ⟨o, rfl, -⟩
    · exact ⟨rfl, rfl⟩
    · exact ⟨rfl, rfl⟩
  | requestCancel op =>
    simp only [State.step] at hs
    split at hs
    · cases hs
      exact ⟨(keeps_requestCancel s op).stopped, (keeps_requestCancel s op).closed⟩
    · cases hs
  | close => exact absurd rfl hclose
  | requestStop => exact absurd rfl hstop
  | shutdown => exact absurd rfl hshutdown
  | poll c => exact ⟨(poll_polls hs).stopped, (poll_polls hs).closed⟩
  | post userData res =>
    obtain ⟨k, -, rfl⟩ := Option.map_eq_some_iff.mp hs
    exact ⟨rfl, rfl⟩
  | _ =>
    simp only [State.step] at hs
    split at hs
    · cases hs
      exact ⟨rfl, rfl⟩
    · cases hs

/-- The cancellation of every operation of a stopped context was requested. -/
def StopOk (s : State) : Prop :=
  s.stopped = true → ∀ op, (s.ops op).registered = true → (s.ops op).cancelRequested = true

/-- The cancellation of all registered operations is requested. -/
theorem Inv.stop_requests (h : Inv s) (hkeeps : Keeps (s.cancelAll s.operations) t)
    (hregistered : (t.ops op).registered = true) : (t.ops op).cancelRequested = true := by
  have hop := ((keeps_cancelAll s s.operations).trans hkeeps).registered op hregistered
  exact hkeeps.requested op (cancelAll_requests s ((h.registered_iff op).mp hop))

theorem StopOk.step (h : StopOk s) (hinv : Inv s) (hs : s.step a = some s') : StopOk s' := by
  intro hstopped op hregistered
  have hold : s.stopped = true → (s'.ops op).cancelRequested = true := by
    intro hold
    rcases step_cases hs op with ⟨awaitable, -, rfl, -⟩ | ⟨-, hgoes, -⟩ | hcarries
    · rw [ops_setOp_self] at hregistered
      cases hregistered
    · exact absurd (.inr (.inl hold)) hgoes
    · exact hcarries.requested (h hold op (hcarries.registered hregistered))
  cases a with
  | requestStop =>
    cases hs
    have hset : Inv { s with stopped := true } :=
      hinv.of_same rfl rfl rfl rfl rfl (fun _ => rfl) (fun _ => rfl) (hinv.wakeup.congr Iff.rfl rfl rfl)
    exact hset.stop_requests (keeps_submitWakeup _) hregistered
  | shutdown =>
    cases hs
    have hset : Inv { s with closed := true, stopped := true } :=
      hinv.of_same rfl rfl rfl rfl rfl (fun _ => rfl) (fun _ => rfl) (hinv.wakeup.congr Iff.rfl rfl rfl)
    exact hset.stop_requests (keeps_submitWakeup _) hregistered
  | close =>
    cases hs
    exact hold ((keeps_close s).stopped ▸ hstopped)
  | _ => exact hold ((step_same hs (by rintro ⟨⟩) (by rintro ⟨⟩) (by rintro ⟨⟩)).1 ▸ hstopped)

/-! ## The exit of the poller -/

/-- The poller may find completions of operations that it has not taken from the ready list. -/
def PollerStage.collects : PollerStage → Bool
  | .scanning _ => true
  | .draining _ _ => true
  | _ => false

/-- The context has nothing to do. -/
def State.Idle (s : State) : Prop :=
  (s.closed = true ∨ s.stopped = true) ∧ s.queues = ([], [], [], false, false, false)

structure ExitOk (s : State) : Prop where
  done : s.pollerDone = true ↔ s.poller = .exited
  error : s.pollerDone = false → s.pollerError = none
  ready : s.poller.collects = false → s.ready = []
  idle : s.pollerDone = true → s.pollerError = none → s.Idle

/-- A section of a thread that is not the poller. -/
theorem ExitOk.of_keeps (h : ExitOk s) (hkeeps : Keeps s t) (hlists : t.lists = s.lists)
    (hqueues : s.pollerDone = true → t.queues = s.queues) : ExitOk t where
  done := by
    rw [hkeeps.pollerDone, hkeeps.poller]
    exact h.done
  error := by
    rw [hkeeps.pollerDone, hkeeps.pollerError]
    exact h.error
  ready := by
    rw [hkeeps.poller, show t.ready = s.ready from congrArg (fun lists => lists.2.2) hlists]
    exact h.ready
  idle hdone herror := by
    rw [hkeeps.pollerDone] at hdone
    rw [hkeeps.pollerError] at herror
    obtain ⟨hstopped, hidle⟩ := h.idle hdone herror
    refine ⟨?_, (hqueues hdone).trans hidle⟩
    rw [hkeeps.closed, hkeeps.stopped]
    exact hstopped

theorem ExitOk.submitWakeup (h : ExitOk s) : ExitOk s.submitWakeup :=
  h.of_keeps (keeps_submitWakeup s) (lists_submitWakeup s) queues_submitWakeup

theorem ExitOk.cancelAll (h : ExitOk s) (ops : List Address) : ExitOk (s.cancelAll ops) :=
  h.of_keeps (keeps_cancelAll s ops) (lists_of_queues (queues_cancelAll s ops))
    fun _ => queues_cancelAll s ops

/-- The context is closed or stopped. -/
theorem ExitOk.leave (h : ExitOk s) (closed stopped : Bool) (hleaves : closed = true ∨ stopped = true) :
    ExitOk { s with closed := closed, stopped := stopped } :=
  ⟨h.done, h.error, h.ready, fun hdone herror => ⟨hleaves, (h.idle hdone herror).2⟩⟩

theorem ExitOk.running (h : ExitOk s) (hpoller : s.poller ≠ .exited) : s.pollerDone = false :=
  Bool.eq_false_iff.mpr (mt h.done.mp hpoller)

/-- The poller goes on. -/
theorem exitOk_running (hdone : s.pollerDone = false) (hpoller : s.poller ≠ .exited)
    (herror : s.pollerError = none) (hready : s.poller.collects = false → s.ready = []) : ExitOk s where
  done := by
    rw [hdone]
    exact iff_of_false (by rintro ⟨⟩) hpoller
  error _ := herror
  ready := hready
  idle h := by
    rw [hdone] at h
    cases h

theorem ExitOk.poll (h : ExitOk s) (hs : s.poll c = some s') : ExitOk s' := by
  have hexited : s.poller ≠ .exited := by
    intro hp
    simp [State.poll, hp] at hs
  have hdone := h.running hexited
  have herror := h.error hdone
  cases hp : s.poller with
  | starting =>
    simp only [State.poll, hp] at hs
    cases hs
    exact exitOk_running hdone (by rintro ⟨⟩) herror fun _ => h.ready (by rw [hp]; rfl)
  | submitting =>
    simp only [State.poll, hp] at hs
    cases hs
    have hkeeps := (keeps_processSubmissions s c s.submissions).trans (submits_flush _ c.flush).keeps
    generalize (s.processSubmissions c s.submissions).flush c.flush = t at hkeeps
    refine exitOk_running (hkeeps.pollerDone.trans hdone) ?_ (hkeeps.pollerError.trans herror) ?_
    · dsimp only
      split <;> rintro ⟨⟩
    · dsimp only
      split
      · next hwaits => exact fun _ => hwaits.2
      · rintro ⟨⟩
  | waiting =>
    have hready := h.ready (by rw [hp]; rfl)
    simp only [State.poll, hp] at hs
    split at hs
    · next hfails =>
      cases hs
      refine ⟨iff_of_true rfl rfl, by rintro ⟨⟩, fun _ => hready, fun _ hnone => ?_⟩
      change c.wait = none at hnone
      rw [hnone] at hfails
      cases hfails
    · cases hs
      exact exitOk_running hdone (by rintro ⟨⟩) herror (by rintro ⟨⟩)
  | scanning retry =>
    simp only [State.poll, hp] at hs
    cases hs
    exact exitOk_running hdone (by rintro ⟨⟩) herror (by rintro ⟨⟩)
  | draining left retry =>
    cases left with
    | zero =>
      simp only [State.poll, hp] at hs
      cases hs
      exact exitOk_running hdone (by rintro ⟨⟩) herror fun _ => rfl
    | succ left =>
      simp only [State.poll, hp] at hs
      split at hs
      · cases hs
      · next completion cq hcq =>
        cases hs
        have hkeeps := keeps_complete { s with
          kernel := { s.kernel with cq := cq }, poller := .draining left retry } completion
        refine exitOk_running (hkeeps.pollerDone.trans hdone) ?_ (hkeeps.pollerError.trans herror) ?_
        · rw [hkeeps.poller]
          rintro ⟨⟩
        · rw [hkeeps.poller]
          rintro ⟨⟩
  | resuming batch retry =>
    have hready := h.ready (by rw [hp]; rfl)
    cases batch with
    | cons op batch =>
      simp only [State.poll, hp] at hs
      cases hs
      exact exitOk_running hdone (by rintro ⟨⟩) herror fun _ => hready
    | nil =>
      simp only [State.poll, hp] at hs
      have hkeeps := keeps_retryParkedCancels s c.flush
      have hlists := lists_retryParkedCancels s c.flush
      generalize s.retryParkedCancels c.flush = t at hs hkeeps hlists
      have hwake : Keeps s (if t.wakeupNeeded then t.submitWakeup else t) ∧
          (if t.wakeupNeeded then t.submitWakeup else t).lists = s.lists := by
        split
        · exact ⟨hkeeps.trans (keeps_submitWakeup t), (lists_submitWakeup t).trans hlists⟩
        · exact ⟨hkeeps, hlists⟩
      generalize (if t.wakeupNeeded then t.submitWakeup else t) = u at hs hwake
      obtain ⟨hkeeps, hlists⟩ := hwake
      have hready' : u.ready = [] := (congrArg (fun lists => lists.2.2) hlists).trans hready
      split at hs
      · next hexits =>
        cases hs
        simp only [State.shouldExit, decide_eq_true_eq] at hexits
        obtain ⟨hleaves, hoperations, hsubmissions, hneeded, hpublished, hflight⟩ := hexits
        refine ⟨iff_of_true rfl rfl, by rintro ⟨⟩, fun _ => hready', fun _ _ => ⟨hleaves, ?_⟩⟩
        simp only [State.queues, hoperations, hsubmissions, hready', hneeded, hpublished, hflight]
      · cases hs
        exact exitOk_running (hkeeps.pollerDone.trans hdone) (by rintro ⟨⟩)
          (hkeeps.pollerError.trans herror) fun _ => hready'
  | exited => exact absurd hp hexited

theorem ExitOk.step (h : ExitOk s) (hs : s.step a = some s') : ExitOk s' := by
  cases a with
  | advance op =>
    rcases advance_cases hs with ⟨rfl, hgoes, -⟩ | ⟨o, rfl, -⟩
    · have hdone : s.pollerDone = false :=
        Bool.eq_false_iff.mpr fun hdone => hgoes (.inr (.inr (.inl hdone)))
      refine exitOk_running hdone (mt h.done.mpr ?_) (h.error hdone) h.ready
      rw [hdone]
      rintro ⟨⟩
    · exact ⟨h.done, h.error, h.ready, h.idle⟩
  | requestCancel op =>
    simp only [State.step] at hs
    split at hs
    · cases hs
      have hexit := h.of_keeps (keeps_requestCancel s op) (lists_of_queues (queues_requestCancel s op))
        fun _ => queues_requestCancel s op
      exact ⟨hexit.done, hexit.error, hexit.ready, hexit.idle⟩
    · cases hs
  | close =>
    cases hs
    exact (h.leave true s.stopped (.inl rfl)).submitWakeup
  | requestStop =>
    cases hs
    exact ((h.leave s.closed true (.inr rfl)).cancelAll s.operations).submitWakeup
  | shutdown =>
    cases hs
    exact ((h.leave true true (.inl rfl)).cancelAll s.operations).submitWakeup
  | poll c => exact h.poll hs
  | post userData res =>
    obtain ⟨k, -, rfl⟩ := Option.map_eq_some_iff.mp hs
    exact ⟨h.done, h.error, h.ready, h.idle⟩
  | _ =>
    simp only [State.step] at hs
    split at hs
    · cases hs
      exact ⟨h.done, h.error, h.ready, h.idle⟩
    · cases hs

/-- What holds in every reachable state. -/
theorem reachable_all (h : Reachable State.step State.IsInitial s) : Inv s ∧ StopOk s ∧ ExitOk s := by
  refine h.preserves (P := fun s => Inv s ∧ StopOk s ∧ ExitOk s) ?_ ?_
  · rintro _ ⟨entries, rfl⟩
    refine ⟨inv_initial ⟨entries, rfl⟩, by rintro ⟨⟩, ⟨?_, fun _ => rfl, fun _ => rfl, by rintro ⟨⟩⟩⟩
    exact iff_of_false (by rintro ⟨⟩) (by rintro ⟨⟩)
  · rintro s a t ⟨hinv, hstop, hexit⟩ hs
    exact ⟨hinv.step hs, hstop.step hinv hs, hexit.step hs⟩

end CCForge.UringContext
