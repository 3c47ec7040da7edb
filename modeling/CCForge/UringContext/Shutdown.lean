import CCForge.UringContext.Runs

/-!
# Cancellation and shutdown

The stop of a token reaches the operation before it is retired, or the operation is not submitted at
all. A NOP that was asked for is published, and the poller waits for its completion before it leaves.
-/

namespace CCForge.UringContext

variable {s s' t : State} {op : Address} {o : Op} {life : Life} {a : Label} {c : Choice}
  {labels : List Label} {rest : List Address}

/-! ## The wakeup that is needed -/

theorem needed_retireIfDrained (s : State) (op : Address) :
    (s.retireIfDrained op).wakeupNeeded = s.wakeupNeeded := by
  rw [retireIfDrained_eq]
  split <;> rfl

theorem Submits.wakeupNeeded (h : Submits s t) : t.wakeupNeeded = s.wakeupNeeded := by rw [h.rest]

theorem needed_processSubmissions (s : State) (c : Choice) (ops : List Address) :
    (s.processSubmissions c ops).wakeupNeeded = s.wakeupNeeded := by
  induction ops generalizing s with
  | nil => rfl
  | cons op rest ih =>
    refine (ih _).trans ?_
    rcases process_cases s op rest c with ⟨o, heq, -⟩ | ⟨t, accepted, hsubmits, -, heq, -⟩
    · rw [heq, needed_retireIfDrained]
      rfl
    · rw [heq]
      split
      · exact hsubmits.wakeupNeeded
      · rw [needed_retireIfDrained]
        exact hsubmits.wakeupNeeded

theorem needed_retryParked (s : State) (n : ℕ) (ops : List Address) :
    (s.retryParked n ops).1.wakeupNeeded = s.wakeupNeeded := by
  induction ops generalizing s n with
  | nil => rfl
  | cons op rest ih =>
    unfold State.retryParked
    split
    · rfl
    split
    · exact ih s n
    · rcases publishCancel_cases s op with hfull | ⟨k, hroom, -⟩
      · rw [hfull]
      · rw [hroom]
        exact ih _ _

theorem needed_retryParkedCancels (s : State) (e : Entered) :
    (s.retryParkedCancels e).wakeupNeeded = s.wakeupNeeded := by
  have hneeded := needed_retryParked s 0 s.operations
  unfold State.retryParkedCancels
  dsimp only
  split
  · exact (submits_flush ..).wakeupNeeded.trans hneeded
  · exact hneeded

theorem needed_complete (s : State) (completion : Cqe) :
    (s.complete completion).wakeupNeeded = s.wakeupNeeded := by
  unfold State.complete
  split
  · rfl
  · rw [needed_retireIfDrained]
    split <;> rfl
  · rw [needed_retireIfDrained]
    rfl

/-- A NOP is asked for, or with the kernel, or its completion is to be drained. -/
def State.Awakens (s : State) : Prop := s.wakeupNeeded = true ∨ s.Wakes

theorem submitWakeup_awakens (hdone : s.pollerDone = false) : s.submitWakeup.Awakens := by
  rcases submitWakeup_cases s with ⟨heq, hskips⟩ | ⟨heq, -⟩ | ⟨k, heq, -⟩
  · rw [heq]
    rcases hskips with hskips | hwakes
    · rw [hdone] at hskips
      cases hskips
    · exact .inr hwakes
  · rw [heq]
    exact .inl rfl
  · rw [heq]
    exact .inr (.inl rfl)

theorem submitWakeup_needed (h : s.wakeupNeeded = true) : s.submitWakeup.Awakens := by
  rcases submitWakeup_cases s with ⟨heq, -⟩ | ⟨heq, -⟩ | ⟨k, heq, -⟩
  · rw [heq]
    exact .inl h
  · rw [heq]
    exact .inl rfl
  · rw [heq]
    exact .inr (.inl rfl)

theorem needed_of_queues (h : s'.queues = s.queues) : s'.wakeupNeeded = s.wakeupNeeded :=
  congrArg (fun queues => queues.2.2.2.1) h

theorem poll_needed (h : s.wakeupNeeded = true) (hs : s.poll c = some s') : s'.Awakens := by
  cases hp : s.poller with
  | starting =>
    simp only [State.poll, hp] at hs
    cases hs
    exact .inl h
  | submitting =>
    simp only [State.poll, hp] at hs
    cases hs
    left
    rw [← h, ← needed_processSubmissions s c s.submissions]
    exact (submits_flush ..).wakeupNeeded
  | waiting =>
    simp only [State.poll, hp] at hs
    split at hs
    all_goals
      cases hs
      exact .inl h
  | scanning retry =>
    simp only [State.poll, hp] at hs
    cases hs
    exact .inl h
  | draining left retry =>
    cases left with
    | zero =>
      simp only [State.poll, hp] at hs
      cases hs
      exact .inl h
    | succ left =>
      simp only [State.poll, hp] at hs
      split at hs
      · cases hs
      · cases hs
        left
        rw [needed_complete]
        exact h
  | resuming batch retry =>
    cases batch with
    | cons op batch =>
      simp only [State.poll, hp] at hs
      cases hs
      exact .inl h
    | nil =>
      have hneeded := (needed_retryParkedCancels s c.flush).trans h
      have hawakens := submitWakeup_needed hneeded
      simp only [State.poll, hp, if_pos hneeded] at hs
      split at hs
      all_goals
        cases hs
        exact hawakens
  | exited => simp [State.poll, hp] at hs

/-- A NOP that was asked for is not forgotten. -/
theorem step_needed (h : s.wakeupNeeded = true) (hs : s.step a = some s') : s'.Awakens := by
  cases a with
  | advance op =>
    rcases advance_cases hs with ⟨rfl, -⟩ | ⟨o, rfl, -⟩
    · exact .inl h
    · exact .inl h
  | requestCancel op =>
    simp only [State.step] at hs
    split at hs
    · cases hs
      exact .inl ((needed_of_queues (queues_requestCancel s op)).trans h)
    · cases hs
  | close =>
    cases hs
    exact submitWakeup_needed h
  | requestStop =>
    cases hs
    exact submitWakeup_needed ((needed_of_queues (queues_cancelAll ..)).trans h)
  | shutdown =>
    cases hs
    exact submitWakeup_needed ((needed_of_queues (queues_cancelAll ..)).trans h)
  | poll c => exact poll_needed h hs
  | post userData res =>
    obtain ⟨k, -, rfl⟩ := Option.map_eq_some_iff.mp hs
    exact .inl h
  | _ =>
    simp only [State.step] at hs
    split at hs
    · cases hs
      exact .inl h
    · cases hs

/-- A call that closes or stops the context asks for a NOP, while the poller runs. -/
theorem lifecycle_awakens (hdone : s.pollerDone = false) :
    s.close.Awakens ∧ s.requestStop.Awakens ∧ s.shutdown.Awakens :=
  ⟨submitWakeup_awakens hdone, submitWakeup_awakens ((keeps_cancelAll ..).pollerDone.trans hdone),
    submitWakeup_awakens ((keeps_cancelAll ..).pollerDone.trans hdone)⟩

/-! ## The queue of submissions -/

theorem submissions_complete (s : State) (completion : Cqe) :
    (s.complete completion).submissions = s.submissions := by
  unfold State.complete
  split
  · rfl
  · rw [submissions_retireIfDrained]
    split <;> rfl
  · rw [submissions_retireIfDrained]
    rfl

/-- Only the section of the submissions takes from their queue. -/
theorem poll_submissions (hs : s.poll c = some s') (hp : s.poller ≠ .submitting) :
    s'.submissions = s.submissions := by
  cases hpoller : s.poller with
  | submitting => exact absurd hpoller hp
  | draining left retry =>
    cases left with
    | zero =>
      simp only [State.poll, hpoller] at hs
      cases hs
      rfl
    | succ left =>
      simp only [State.poll, hpoller] at hs
      split at hs
      · cases hs
      · cases hs
        rw [submissions_complete]
  | waiting =>
    simp only [State.poll, hpoller] at hs
    split at hs
    all_goals
      cases hs
      rfl
  | resuming batch retry =>
    cases batch with
    | cons op batch =>
      simp only [State.poll, hpoller] at hs
      cases hs
      rfl
    | nil =>
      have hlists := lists_retryParkedCancels s c.flush
      simp only [State.poll, hpoller] at hs
      generalize s.retryParkedCancels c.flush = t at hs hlists
      have hwake : (if t.wakeupNeeded then t.submitWakeup else t).lists = s.lists := by
        split
        · exact (lists_submitWakeup t).trans hlists
        · exact hlists
      generalize (if t.wakeupNeeded then t.submitWakeup else t) = u at hs hwake
      have hsubmissions : u.submissions = s.submissions := congrArg (fun lists => lists.2.1) hwake
      split at hs
      all_goals
        cases hs
        exact hsubmissions
  | exited => simp [State.poll, hpoller] at hs
  | _ =>
    simp only [State.poll, hpoller] at hs
    cases hs
    rfl

theorem submissions_of_lists (h : s'.lists = s.lists) : s'.submissions = s.submissions :=
  congrArg (fun lists => lists.2.1) h

theorem step_submissions (hs : s.step a = some s') (ha : ∀ c, a = .poll c → s.poller ≠ .submitting)
    (hop : op ∈ s.submissions) : op ∈ s'.submissions := by
  cases a with
  | advance other =>
    rcases advance_cases hs with ⟨rfl, -⟩ | ⟨o, rfl, -⟩
    · exact List.mem_append_left _ hop
    · exact hop
  | requestCancel other =>
    simp only [State.step] at hs
    split at hs
    · cases hs
      exact (submissions_of_lists (lists_of_queues (queues_requestCancel s other))).symm ▸ hop
    · cases hs
  | close =>
    cases hs
    exact (submissions_of_lists (lists_submitWakeup _)).symm ▸ hop
  | requestStop =>
    cases hs
    exact (submissions_of_lists ((lists_submitWakeup _).trans
      (lists_of_queues (queues_cancelAll ..)))).symm ▸ hop
  | shutdown =>
    cases hs
    exact (submissions_of_lists ((lists_submitWakeup _).trans
      (lists_of_queues (queues_cancelAll ..)))).symm ▸ hop
  | poll c => exact (poll_submissions hs (ha c rfl)).symm ▸ hop
  | post userData res =>
    obtain ⟨k, -, rfl⟩ := Option.map_eq_some_iff.mp hs
    exact hop
  | _ =>
    simp only [State.step] at hs
    split at hs
    · cases hs
      exact hop
    · cases hs

theorem Inv.queued (h : Inv s) (hop : op ∈ s.submissions) :
    ∃ requested, Follows s op (.queued requested) := by
  obtain ⟨life, hl⟩ := h.lives op
  obtain ⟨requested, rfl⟩ := hl.queued hop
  exact ⟨requested, hl⟩

/-- A queued operation with a request stays in the queue, or is finished by the poller. -/
theorem Inv.step_queued (h : Inv s) (hs : s.step a = some s') (hop : op ∈ s.submissions)
    (hrequested : (s.ops op).cancelRequested = true) :
    (op ∈ s'.submissions ∧ (s'.ops op).cancelRequested = true) ∨
    ((s'.ops op).registered = false ∧ (s'.ops op).result = -(ECANCELED : ℤ)) := by
  by_cases ha : ∃ c, a = .poll c ∧ s.poller = .submitting
  · obtain ⟨c, rfl, hp⟩ := ha
    right
    have hloop := h.processSubmissions_requested rfl hop hrequested c
    rw [← (submits_flush (s.processSubmissions c s.submissions) c.flush).ops] at hloop
    simp only [State.step, State.poll, hp] at hs
    cases hs
    exact hloop
  · left
    refine ⟨step_submissions hs (fun c heq hp => ha ⟨c, heq, hp⟩) hop, ?_⟩
    obtain ⟨requested, hl⟩ := h.queued hop
    rcases step_cases hs op with ⟨awaitable, -, -, hstage⟩ | ⟨-, -, hstage⟩ | hcarries
    · rw [hl.fields.suspended rfl] at hstage
      rcases hstage with hstage | hstage <;> cases hstage
    · rw [hl.fields.suspended rfl] at hstage
      cases hstage
    · exact hcarries.requested hrequested

/-! ## What holds in every run -/

/-- An operation that was accepted and is not registered any more was retired. -/
theorem Inv.retired (h : Inv s) (hphase : (s.ops op).phase ≠ .starting)
    (hregistered : (s.ops op).registered = false) : (s.ops op).retirements = 1 := by
  obtain ⟨life, hl⟩ := h.lives op
  rw [hl.fields.phase] at hphase
  rw [hl.fields.registered] at hregistered
  rw [hl.fields.retirements]
  cases life with
  | fresh => exact absurd rfl hphase
  | ready => rfl
  | resumed => rfl
  | _ => cases hregistered

/-- A requested cancellation is not forgotten before the retirement. -/
theorem Inv.requested_kept (h : Inv s) (hrun : run State.step s labels = some t)
    (hlabels : ∀ awaitable, .create op awaitable ∉ labels) (hphase : (s.ops op).phase ≠ .starting)
    (hrequested : (s.ops op).cancelRequested = true) :
    ((t.ops op).registered = true ∧ (t.ops op).cancelRequested = true) ∨ (t.ops op).retirements = 1 := by
  have hkept : Inv t ∧ (t.ops op).phase ≠ .starting ∧ (t.ops op).cancelRequested = true := by
    refine run_preserves_on (P := fun u => Inv u ∧ (u.ops op).phase ≠ .starting ∧
      (u.ops op).cancelRequested = true) (Q := fun a => ∀ awaitable, a ≠ .create op awaitable) ?_
      ⟨h, hphase, hrequested⟩ ?_ hrun
    · rintro u a v ⟨hu, hp, hr⟩ ha hs
      have hcarries := hu.carries hs ha hp
      exact ⟨hu.step hs, hcarries.phase hp, hcarries.requested hr⟩
    · rintro a ha awaitable rfl
      exact hlabels awaitable ha
  obtain ⟨hinv, hphase, hrequested⟩ := hkept
  cases hregistered : (t.ops op).registered with
  | true => exact .inl ⟨rfl, hrequested⟩
  | false => exact .inr (hinv.retired hphase hregistered)

/-- An operation whose token was stopped before its registration is never registered. -/
theorem unregistered_kept (hrun : run State.step s labels = some t)
    (hlabels : ∀ awaitable, .create op awaitable ∉ labels) (htoken : (s.ops op).tokenStopped = true)
    (hregistered : (s.ops op).registered = false) : (t.ops op).registered = false := by
  have hkept : (t.ops op).tokenStopped = true ∧ (t.ops op).registered = false := by
    refine run_preserves_on (P := fun u => (u.ops op).tokenStopped = true ∧ (u.ops op).registered = false)
      (Q := fun a => ∀ awaitable, a ≠ .create op awaitable) ?_ ⟨htoken, hregistered⟩ ?_ hrun
    · rintro u a v ⟨ht, hr⟩ ha hs
      rcases step_cases hs op with ⟨awaitable, heq, -⟩ | ⟨-, hgoes, -⟩ | hcarries
      · exact absurd heq (ha awaitable)
      · exact absurd (.inr (.inr (.inr ht))) hgoes
      · refine ⟨hcarries.token ht, Bool.eq_false_iff.mpr fun hv => ?_⟩
        rw [hcarries.registered hv] at hr
        cases hr
    · rintro a ha awaitable rfl
      exact hlabels awaitable ha
  exact hkept.2

/-! ## One operation -/

/-- What the stop of the token of an operation comes to. -/
structure Cancels (s : State) (op : Address) : Prop where
  /-- The stop comes before the registration. -/
  refused : (s.ops op).tokenStopped = true → s.submitOperation op = (s, false)
  unpublished : (s.ops op).registered = false →
    s.kernel.outstanding (.target op) = 0 ∧ s.kernel.outstanding (.cancel op) = 0
  unregistered : (s.ops op).tokenStopped = true → (s.ops op).registered = false →
    ∀ labels t, run State.step s labels = some t → (∀ awaitable, .create op awaitable ∉ labels) →
      (t.ops op).registered = false
  /-- It comes after that. Then the callback is executed, or is about to be. -/
  reached : (s.ops op).tokenStopped = true → (s.ops op).registered = true →
    (s.ops op).cancelRequested = true ∨ (s.ops op).callback = .armed ∨ (s.ops op).callback = .running
  called : (s.ops op).tokenStopped = true → (s.ops op).callback = .armed →
    ∃ t, s.step (.runCallback op) = some t ∧ (t.ops op).callback = .running
  executed : (s.ops op).callback = .running → ∃ t, s.step (.requestCancel op) = some t ∧
    (t.ops op).registered = (s.ops op).registered ∧
    ((t.ops op).registered = true → (t.ops op).cancelRequested = true)
  requested : (s.ops op).registered = true → (s.ops op).cancelRequested = true →
    op ∈ s.submissions ∨ (s.ops op).cancelPublished = true ∨
      (s.ops op).cancelParked = true ∧ 0 < s.parkedCancels
  kept : (s.ops op).registered = true → (s.ops op).cancelRequested = true →
    ∀ labels t, run State.step s labels = some t → (∀ awaitable, .create op awaitable ∉ labels) →
      ((t.ops op).registered = true ∧ (t.ops op).cancelRequested = true) ∨ (t.ops op).retirements = 1
  /-- A queued operation is finished without a call of the ring. -/
  finished : op ∈ s.submissions → (s.ops op).cancelRequested = true →
    s.kernel.outstanding (.target op) = 0 ∧ s.kernel.outstanding (.cancel op) = 0 ∧
    (∀ rest c, ({ s with submissions := rest }.process op c).kernel = s.kernel) ∧
    ∀ a t, s.step a = some t → (op ∈ t.submissions ∧ (t.ops op).cancelRequested = true) ∨
      (t.ops op).retirements = 1 ∧ (t.ops op).result = -(ECANCELED : ℤ)

theorem registered_requestCancel (h : Inv s) (op : Address) :
    ((s.requestCancel op).ops op).registered = (s.ops op).registered := by
  have hiff : ((s.requestCancel op).ops op).registered = true ↔ (s.ops op).registered = true := by
    rw [(h.requestCancel op).registered_iff, h.registered_iff,
      show (s.requestCancel op).operations = s.operations from
        congrArg Prod.fst (queues_requestCancel s op)]
  exact Bool.eq_iff_iff.mpr hiff

theorem Inv.cancels (h : Inv s) (op : Address) : Cancels s op where
  refused htoken := submitOperation_refuses (.inr (.inr (.inr htoken)))
  unpublished hregistered := by
    obtain ⟨life, hl⟩ := h.lives op
    rw [hl.fields.registered] at hregistered
    rw [hl.targets, hl.cancels]
    cases life with
    | queued requested => cases hregistered
    | submitted target cancel => cases hregistered
    | _ => exact ⟨rfl, rfl⟩
  unregistered htoken hregistered labels t hrun hlabels :=
    unregistered_kept hrun hlabels htoken hregistered
  reached htoken hregistered := by
    obtain ⟨life, hl⟩ := h.lives op
    have htok := hl.fields.token
    have hstage : (s.ops op).stage = .suspended := by
      refine hl.fields.suspended ?_
      rw [← hl.fields.registered]
      exact hregistered
    cases hcallback : (s.ops op).callback with
    | absent => exact absurd hcallback (htok.installed (htok.stopPossible htoken) (.inr hstage))
    | armed => exact .inr (.inl rfl)
    | running => exact .inr (.inr rfl)
    | spent => exact .inl (htok.requested hcallback hregistered)
  called htoken harmed := by
    refine ⟨_, if_pos ⟨htoken, harmed⟩, ?_⟩
    rw [ops_setOp_self]
  executed hrunning := by
    refine ⟨_, if_pos hrunning, ?_, ?_⟩
    · rw [ops_setOp_self]
      exact registered_requestCancel h op
    · rw [ops_setOp_self]
      exact requestCancel_requests s op
  requested hregistered hrequested := by
    obtain ⟨life, hl⟩ := h.lives op
    rw [hl.fields.registered] at hregistered
    cases life with
    | queued requested => exact .inl (hl.submissions.mpr ⟨_, rfl⟩)
    | submitted target cancel =>
      right
      cases cancel with
      | none =>
        rw [hl.fields.cancelRequested _ rfl] at hrequested
        cases hrequested
      | parked => exact .inr ⟨hl.fields.cancelParked, h.parked.pos hl.fields.cancelParked⟩
      | published => exact .inl (hl.fields.cancelPublished _ rfl)
      | drained => exact .inl (hl.fields.cancelPublished _ rfl)
    | _ => cases hregistered
  kept hregistered hrequested labels t hrun hlabels := by
    refine h.requested_kept hrun hlabels ?_ hrequested
    obtain ⟨life, hl⟩ := h.lives op
    rw [hl.fields.registered] at hregistered
    rw [hl.fields.phase]
    cases life with
    | queued requested => rintro ⟨⟩
    | submitted target cancel => rintro ⟨⟩
    | _ => cases hregistered
  finished hop hrequested := by
    obtain ⟨requested, hl⟩ := h.queued hop
    refine ⟨hl.targets, hl.cancels,
      fun rest c => (process_requested rest hrequested hl.fields.pendingCqes c).1, fun a t hs => (h.step_queued hs hop hrequested).imp_right fun ⟨hregistered, hresult⟩ => ⟨?_, hresult⟩⟩
    refine (h.step hs).retired ?_ hregistered
    rcases step_cases hs op with ⟨awaitable, -, -, hstage⟩ | ⟨-, -, hstage⟩ | hcarries
    · rw [hl.fields.suspended rfl] at hstage
      rcases hstage with hstage | hstage <;> cases hstage
    · rw [hl.fields.suspended rfl] at hstage
      cases hstage
    · refine hcarries.phase ?_
      rw [hl.fields.phase]
      rintro ⟨⟩

/-! ## The context -/

/-- What a stop of the context comes to, and when the poller leaves. -/
structure Leaves (s : State) : Prop where
  stopped : s.stopped = true → ∀ op, (s.ops op).registered = true → (s.ops op).cancelRequested = true
  refused : s.closed = true ∨ s.stopped = true ∨ s.pollerDone = true →
    ∀ op, s.submitOperation op = (s, false)
  stays : ∀ a t, s.step a = some t →
    (a = .requestStop ∨ a = .shutdown ∨ s.stopped = true → t.stopped = true) ∧
    (a = .close ∨ a = .shutdown ∨ s.closed = true → t.closed = true)
  /-- A NOP is published, held by the kernel or to be drained when a flag tells so. -/
  wakeup : (s.wakeupNeeded = false ∧ s.wakeupPublished = false ∧ s.wakeupInFlight = false) ↔
    s.wakeupNeeded = false ∧ s.kernel.outstanding .wakeup = 0
  one : s.kernel.outstanding .wakeup = if s.wakeupPublished = true ∨ s.wakeupInFlight = true then 1 else 0
  /-- A NOP is needed from the call that asks for it to its publication. -/
  needed : s.wakeupNeeded = true → s.kernel.outstanding .wakeup = 0 ∧
    ∀ a t, s.step a = some t → t.wakeupNeeded = true ∨ t.kernel.outstanding .wakeup = 1
  asked : s.pollerDone = false → ∀ a t, a = .close ∨ a = .requestStop ∨ a = .shutdown →
    s.step a = some t → t.wakeupNeeded = true ∨ t.kernel.outstanding .wakeup = 1
  parked : ∃ parked : Finset Address, (∀ op, op ∈ parked ↔ (s.ops op).cancelParked = true) ∧
    s.parkedCancels = parked.card
  done : s.pollerDone = true ↔ s.poller = .exited
  /-- The poller leaves when nothing is with the kernel, and every accepted operation is resumed. -/
  exited : s.poller = .exited → s.pollerError = none → (s.closed = true ∨ s.stopped = true) ∧
    s.kernel.sq = [] ∧ s.kernel.held = [] ∧ s.kernel.cq = [] ∧ s.operations = [] ∧ s.submissions = [] ∧
    ∀ op, (s.ops op).phase ≠ .starting → (s.ops op).resumptions = 1

theorem Kernel.empty {k : Kernel} (h : ∀ u, k.outstanding u = 0) : k.sq = [] ∧ k.held = [] ∧ k.cq = [] := by
  have hsplit : ∀ u, k.sq.countP (fun sqe => sqe.userData = u) = 0 ∧ k.held.count u = 0 ∧
      k.cq.countP (fun cqe => cqe.userData = u) = 0 := fun u => by
    have hu := h u
    unfold Kernel.outstanding at hu
    omega
  refine ⟨List.eq_nil_iff_forall_not_mem.mpr fun sqe hmem => ?_,
    List.eq_nil_iff_forall_not_mem.mpr fun u hmem => ?_,
    List.eq_nil_iff_forall_not_mem.mpr fun cqe hmem => ?_⟩
  · have hzero := List.countP_eq_zero.mp (hsplit sqe.userData).1 sqe hmem
    simp at hzero
  · exact absurd (hsplit u).2.1 (List.count_pos_iff.mpr hmem).ne'
  · have hzero := List.countP_eq_zero.mp (hsplit cqe.userData).2.2 cqe hmem
    simp at hzero

/-- The kernel has let go of the operations that are not registered. -/
theorem Inv.empty (h : Inv s) (hoperations : s.operations = []) (hwakes : ¬s.Wakes) :
    s.kernel.sq = [] ∧ s.kernel.held = [] ∧ s.kernel.cq = [] := by
  have hnone : ∀ op, (s.ops op).registered = false := fun op => by
    refine Bool.eq_false_iff.mpr fun hregistered => ?_
    have hmem := (h.registered_iff op).mp hregistered
    rw [hoperations] at hmem
    cases hmem
  refine Kernel.empty fun u => ?_
  cases u with
  | wakeup => exact h.wakeup.none hwakes
  | target op => exact ((h.cancels op).unpublished (hnone op)).1
  | cancel op => exact ((h.cancels op).unpublished (hnone op)).2

theorem WakeupOk.awakens (h : WakeupOk s) (hawakens : s.Awakens) :
    s.wakeupNeeded = true ∨ s.kernel.outstanding .wakeup = 1 := by
  refine hawakens.imp_right fun hwakes => ?_
  rw [h.outstanding]
  exact if_pos hwakes

theorem WakeupOk.quiet_iff (h : WakeupOk s) :
    (s.wakeupPublished = false ∧ s.wakeupInFlight = false) ↔ s.kernel.outstanding .wakeup = 0 := by
  rw [h.outstanding]
  cases s.wakeupPublished <;> cases s.wakeupInFlight <;> simp

theorem step_stays (hs : s.step a = some t) :
    (a = .requestStop ∨ a = .shutdown ∨ s.stopped = true → t.stopped = true) ∧
    (a = .close ∨ a = .shutdown ∨ s.closed = true → t.closed = true) := by
  cases a with
  | close =>
    cases hs
    have hkeeps := keeps_close s
    rw [hkeeps.stopped, hkeeps.closed]
    exact ⟨by rintro (hc | hc | hc) <;> first | cases hc | exact hc, fun _ => rfl⟩
  | requestStop =>
    cases hs
    have hkeeps := keeps_requestStop s
    rw [hkeeps.stopped, hkeeps.closed]
    exact ⟨fun _ => rfl, by rintro (hc | hc | hc) <;> first | cases hc | exact hc⟩
  | shutdown =>
    cases hs
    have hkeeps := keeps_shutdown s
    rw [hkeeps.stopped, hkeeps.closed]
    exact ⟨fun _ => rfl, fun _ => rfl⟩
  | _ =>
    have hsame := step_same hs (by rintro ⟨⟩) (by rintro ⟨⟩) (by rintro ⟨⟩)
    rw [hsame.1, hsame.2]
    exact ⟨by rintro (hc | hc | hc) <;> first | cases hc | exact hc,
      by rintro (hc | hc | hc) <;> first | cases hc | exact hc⟩

/-- The poller has left a context with nothing to do. -/
theorem Inv.exited (h : Inv s) (hexit : ExitOk s) (hpoller : s.poller = .exited)
    (herror : s.pollerError = none) : (s.closed = true ∨ s.stopped = true) ∧
    s.kernel.sq = [] ∧ s.kernel.held = [] ∧ s.kernel.cq = [] ∧ s.operations = [] ∧ s.submissions = [] ∧
    ∀ op, (s.ops op).phase ≠ .starting → (s.ops op).resumptions = 1 := by
  obtain ⟨hleaves, hqueues⟩ := hexit.idle (hexit.done.mpr hpoller) herror
  simp only [State.queues, Prod.mk.injEq] at hqueues
  obtain ⟨hoperations, hsubmissions, hready, hneeded, hpublished, hflight⟩ := hqueues
  have hwakes : ¬s.Wakes := by
    simp [State.Wakes, hpublished, hflight]
  obtain ⟨hsq, hheld, hcq⟩ := h.empty hoperations hwakes
  refine ⟨hleaves, hsq, hheld, hcq, hoperations, hsubmissions, fun op hphase => ?_⟩
  obtain ⟨life, hl⟩ := h.lives op
  have hunregistered : life.registered ≠ true := by
    refine mt hl.operations.mpr ?_
    rw [hoperations]
    exact List.not_mem_nil
  have hunready : life ≠ .ready := by
    refine mt hl.ready.mpr ?_
    rw [hready, hpoller]
    exact List.not_mem_nil
  rw [hl.fields.phase] at hphase
  rw [hl.fields.resumptions]
  cases life with
  | fresh => exact absurd rfl hphase
  | queued requested => exact absurd rfl hunregistered
  | submitted target cancel => exact absurd rfl hunregistered
  | ready => exact absurd rfl hunready
  | resumed => rfl

theorem Inv.leaves (h : Inv s) (hstop : StopOk s) (hexit : ExitOk s) : Leaves s where
  stopped := hstop
  refused hrefuses op := submitOperation_refuses (hrefuses.imp_right (Or.imp_right Or.inl))
  stays _ _ hs := step_stays hs
  wakeup := by rw [h.wakeup.quiet_iff]
  one := h.wakeup.outstanding
  needed hneeded :=
    ⟨h.wakeup.quiet_iff.mp (h.wakeup.needed hneeded),
      fun _ _ hs => (h.step hs).wakeup.awakens (step_needed hneeded hs)⟩
  asked hdone a t ha hs := by
    refine (h.step hs).wakeup.awakens ?_
    obtain ⟨hclose, hstop, hshutdown⟩ := lifecycle_awakens hdone
    rcases ha with rfl | rfl | rfl
    · cases hs
      exact hclose
    · cases hs
      exact hstop
    · cases hs
      exact hshutdown
  parked := h.parked
  done := hexit.done
  exited := h.exited hexit

/-- No stop of a token or of the context is lost. -/
theorem cancellation_not_lost (h : Reachable State.step State.IsInitial s) :
    (∀ op, Cancels s op) ∧ Leaves s := by
  obtain ⟨hinv, hstop, hexit⟩ := reachable_all h
  exact ⟨hinv.cancels, hinv.leaves hstop hexit⟩

/-- The token of the first operation is stopped while its submission is queued, the stop of the context
requests the cancellation of the second, and the NOP is consumed by a flush that reports an error. -/
theorem cancellation_not_lost_shutdown : ∃ s, Reachable State.step State.IsInitial s ∧
    s.poller = .exited ∧ (s.ops 0).result = -125 ∧ (s.ops 1).result = -4 ∧ (∀ op, Cancels s op) ∧
    Leaves s := by
  obtain ⟨s, hs, hexited, hfirst, hsecond⟩ :
      ∃ s, run State.step { kernel := { entries := 2 } }
        [.create 1 { size := 8 }, .await 1, .advance 1, .advance 1, .advance 1, .poll {}, .poll {},
          .create 0 { size := 8, stopPossible := true }, .await 0, .advance 0, .advance 0, .advance 0,
          .stopToken 0, .runCallback 0, .requestCancel 0, .requestStop,
          .poll {}, .poll {}, .poll {}, .poll {}, .poll { flush := .some 2 EAGAIN }, .poll {}, .poll {},
          .poll {}, .poll {}, .poll { flush := .some 0 EBUSY },
          .post .wakeup 0, .post (.cancel 1) 0, .post (.target 1) (-4),
          .poll {}, .poll {}, .poll {}, .poll {}, .poll {}, .poll {}, .poll {}, .poll {}] = some s ∧
      s.poller = .exited ∧ (s.ops 0).result = -125 ∧ (s.ops 1).result = -4 := ⟨_, rfl, rfl, rfl, rfl⟩
  have hr : Reachable State.step State.IsInitial s := ⟨_, ⟨2, rfl⟩, _, hs⟩
  exact ⟨s, hr, hexited, hfirst, hsecond, cancellation_not_lost hr⟩

end CCForge.UringContext
