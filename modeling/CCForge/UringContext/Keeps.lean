import CCForge.UringContext.Cancels

/-!
# What the sections keep

No section takes back a request, and none registers an operation but its submission.
-/

namespace CCForge.UringContext

variable {s s' t : State} {op other : Address} {o : Op} {k : Kernel} {c : Choice} {rest : List Address}

/-- What the threads of an awaitable and of its token have done. -/
def Op.caller (o : Op) : Stage × Callback × Bool := (o.stage, o.callback, o.tokenStopped)

/-- What a section under the mutex keeps, unless it closes or stops the context or submits an
operation. -/
structure Keeps (s s' : State) : Prop where
  poller : s'.poller = s.poller
  closed : s'.closed = s.closed
  stopped : s'.stopped = s.stopped
  pollerDone : s'.pollerDone = s.pollerDone
  pollerError : s'.pollerError = s.pollerError
  registered : ∀ op, (s'.ops op).registered = true → (s.ops op).registered = true
  requested : ∀ op, (s.ops op).cancelRequested = true → (s'.ops op).cancelRequested = true
  phase : ∀ op, (s.ops op).phase ≠ .starting → (s'.ops op).phase ≠ .starting
  caller : ∀ op, (s'.ops op).caller = (s.ops op).caller

theorem Keeps.refl (s : State) : Keeps s s :=
  ⟨rfl, rfl, rfl, rfl, rfl, fun _ h => h, fun _ h => h, fun _ h => h, fun _ => rfl⟩

theorem Keeps.trans (h : Keeps s s') (h' : Keeps s' t) : Keeps s t :=
  ⟨h'.poller.trans h.poller, h'.closed.trans h.closed, h'.stopped.trans h.stopped,
    h'.pollerDone.trans h.pollerDone, h'.pollerError.trans h.pollerError,
    fun op hr => h.registered op (h'.registered op hr),
    fun op hr => h'.requested op (h.requested op hr), fun op hp => h'.phase op (h.phase op hp),
    fun op => (h'.caller op).trans (h.caller op)⟩

/-- A section that changes one operation. -/
theorem keeps_op (op : Address) (hpoller : t.poller = s.poller) (hclosed : t.closed = s.closed)
    (hstopped : t.stopped = s.stopped) (hdone : t.pollerDone = s.pollerDone)
    (herror : t.pollerError = s.pollerError) (hops : ∀ other, other ≠ op → t.ops other = s.ops other)
    (hregistered : (t.ops op).registered = true → (s.ops op).registered = true)
    (hrequested : (s.ops op).cancelRequested = true → (t.ops op).cancelRequested = true)
    (hphase : (s.ops op).phase ≠ .starting → (t.ops op).phase ≠ .starting)
    (hcaller : (t.ops op).caller = (s.ops op).caller) : Keeps s t where
  poller := hpoller
  closed := hclosed
  stopped := hstopped
  pollerDone := hdone
  pollerError := herror
  registered other := by
    by_cases he : other = op
    · subst he
      exact hregistered
    · rw [hops other he]
      exact id
  requested other := by
    by_cases he : other = op
    · subst he
      exact hrequested
    · rw [hops other he]
      exact id
  phase other := by
    by_cases he : other = op
    · subst he
      exact hphase
    · rw [hops other he]
      exact id
  caller other := by
    by_cases he : other = op
    · subst he
      exact hcaller
    · rw [hops other he]

theorem keeps_setOp (hregistered : o.registered = true → (s.ops op).registered = true)
    (hrequested : (s.ops op).cancelRequested = true → o.cancelRequested = true)
    (hphase : (s.ops op).phase ≠ .starting → o.phase ≠ .starting)
    (hcaller : o.caller = (s.ops op).caller) : Keeps s (s.setOp op o) := by
  refine keeps_op op rfl rfl rfl rfl rfl (fun _ hne => ops_setOp_of_ne hne) ?_ ?_ ?_ ?_
  all_goals
    rw [ops_setOp_self]
    assumption

theorem Submits.keeps (h : Submits s t) : Keeps s t := by
  rw [h.rest]
  exact ⟨rfl, rfl, rfl, rfl, rfl, fun _ h => h, fun _ h => h, fun _ h => h, fun _ => rfl⟩

/-! ## The retirement -/

theorem keeps_retireIfDrained (s : State) (op : Address) : Keeps s (s.retireIfDrained op) := by
  rw [retireIfDrained_eq]
  split
  · exact keeps_setOp id id id rfl
  · refine keeps_op op rfl rfl rfl rfl rfl (fun _ hne => ops_setOp_of_ne hne) ?_ ?_ ?_ ?_
    all_goals rw [ops_setOp_self]
    · rintro ⟨⟩
    · exact id
    · rintro _ ⟨⟩
    · rfl

theorem submissions_retireIfDrained (s : State) (op : Address) :
    (s.retireIfDrained op).submissions = s.submissions := by
  rw [retireIfDrained_eq]
  split <;> rfl

theorem kernel_retireIfDrained (s : State) (op : Address) :
    (s.retireIfDrained op).kernel = s.kernel := by
  rw [retireIfDrained_eq]
  split <;> rfl

theorem result_retireIfDrained (s : State) (op : Address) :
    ((s.retireIfDrained op).ops op).result = (s.ops op).result := by
  rw [retireIfDrained_eq]
  split <;> rw [ops_setOp_self]

/-! ## The submissions -/

theorem keeps_dequeue (s : State) (op : Address) (rest : List Address) : Keeps s (s.dequeue op rest) := by
  have hops : (s.dequeue op rest).ops op = { s.ops op with submissionPending := false } := ops_setOp_self ..
  refine keeps_op op rfl rfl rfl rfl rfl (fun _ hne => ops_setOp_of_ne hne) ?_ ?_ ?_ ?_
  all_goals rw [hops]
  · exact id
  · exact id
  · exact id
  · rfl

theorem keeps_process (s : State) (op : Address) (rest : List Address) (c : Choice) :
    Keeps s ({ s with submissions := rest }.process op c) := by
  have hkeeps := keeps_dequeue s op rest
  rcases process_cases s op rest c with ⟨o, heq, rfl, -⟩ | ⟨t, accepted, hsubmits, -, heq, -⟩
  · rw [heq]
    have hops : (s.dequeue op rest).ops op = { s.ops op with submissionPending := false } :=
      ops_setOp_self ..
    refine (hkeeps.trans (keeps_setOp ?_ (fun _ => rfl) ?_ ?_)).trans (keeps_retireIfDrained ..)
    all_goals rw [hops]
    · exact id
    · exact id
    · rfl
  · rw [heq]
    split
    · exact hkeeps.trans hsubmits.keeps
    · refine ((hkeeps.trans hsubmits.keeps).trans ?_).trans (keeps_retireIfDrained ..)
      exact keeps_setOp id id id rfl

theorem submissions_process (s : State) (op : Address) (rest : List Address) (c : Choice) :
    ({ s with submissions := rest }.process op c).submissions = rest := by
  rcases process_cases s op rest c with ⟨o, heq, -⟩ | ⟨t, accepted, hsubmits, -, heq, -⟩
  · rw [heq, submissions_retireIfDrained]
    rfl
  · rw [heq]
    split
    · exact hsubmits.submissions
    · rw [submissions_retireIfDrained]
      exact hsubmits.submissions

theorem keeps_processSubmissions (s : State) (c : Choice) (ops : List Address) :
    Keeps s (s.processSubmissions c ops) := by
  induction ops generalizing s with
  | nil => exact .refl s
  | cons op rest ih => exact (keeps_process s op rest c).trans (ih _)

theorem Inv.processSubmissions {ops : List Address} (h : Inv s) (hs : s.submissions = ops) (c : Choice) :
    Inv (s.processSubmissions c ops) := by
  induction ops generalizing s with
  | nil => exact h
  | cons op rest ih => exact ih (h.process hs c) (submissions_process s op rest c)

/-- An operation whose cancellation was requested is finished without a call of the ring. -/
theorem process_requested (rest : List Address) (h : (s.ops op).cancelRequested = true)
    (hcqes : (s.ops op).pendingCqes = 1) (c : Choice) : ({ s with submissions := rest }.process op c).kernel = s.kernel ∧
      (({ s with submissions := rest }.process op c).ops op).registered = false ∧
      (({ s with submissions := rest }.process op c).ops op).result = -(ECANCELED : ℤ) := by
  rcases process_cases s op rest c with ⟨o, heq, rfl, -⟩ | ⟨-, -, -, -, -, -, hnot⟩
  · rw [heq, kernel_retireIfDrained, result_retireIfDrained, ops_setOp_self]
    refine ⟨rfl, ?_, rfl⟩
    rw [retireIfDrained_eq, ops_setOp_self, if_neg (by rw [hcqes]; decide), ops_setOp_self]
  · rw [h] at hnot
    cases hnot

theorem processSubmissions_of_notMem {ops : List Address} (hs : s.submissions = ops)
    (hop : op ∉ ops) (c : Choice) : (s.processSubmissions c ops).ops op = s.ops op := by
  induction ops generalizing s with
  | nil => rfl
  | cons first rest ih =>
    obtain ⟨hne, hrest⟩ := not_or.mp (mt List.mem_cons.mpr hop)
    refine (ih (submissions_process s first rest c) hrest).trans ?_
    exact (frame_process hs c).ops op hne

/-- The loop finishes the operations with a request. -/
theorem Inv.processSubmissions_requested {ops : List Address} (h : Inv s) (hs : s.submissions = ops)
    (hop : op ∈ ops) (hrequested : (s.ops op).cancelRequested = true) (c : Choice) :
    ((s.processSubmissions c ops).ops op).registered = false ∧
      ((s.processSubmissions c ops).ops op).result = -(ECANCELED : ℤ) := by
  induction ops generalizing s with
  | nil => cases hop
  | cons first rest ih =>
    have hnodup := h.submissions
    rw [hs, List.nodup_cons] at hnodup
    have hsubmissions := submissions_process s first rest c
    by_cases he : op = first
    · subst he
      obtain ⟨life, hl⟩ := h.lives op
      obtain ⟨requested, rfl⟩ := hl.queued (by rw [hs]; exact List.mem_cons_self)
      have hprocess := process_requested rest hrequested hl.fields.pendingCqes c
      change ((State.processSubmissions _ c rest).ops op).registered = _ ∧
        ((State.processSubmissions _ c rest).ops op).result = _
      rw [processSubmissions_of_notMem (c := c) hsubmissions hnodup.1]
      exact hprocess.2
    · refine ih (h.process hs c) hsubmissions ((List.mem_cons.mp hop).resolve_left he) ?_
      rw [(frame_process hs c).ops op he]
      exact hrequested

/-! ## The cancels -/

theorem keeps_queueCancel (s : State) (op : Address) : Keeps s (s.queueCancel op) := by
  unfold State.queueCancel
  rcases publishCancel_cases s.signalPoller op with hfull | ⟨k, hroom, -⟩
  · rw [hfull]
    refine keeps_op op rfl rfl rfl rfl rfl (fun _ hne => ops_setOp_of_ne hne) ?_ ?_ ?_ ?_
    all_goals rw [ops_setOp_self]
    · exact id
    · exact id
    · exact id
    · rfl
  · rw [hroom]
    refine keeps_op op rfl rfl rfl rfl rfl (fun _ hne => ops_setOp_of_ne hne) ?_ ?_ ?_ ?_
    all_goals rw [ops_setOp_self]
    · exact id
    · exact id
    · exact id
    · rfl

theorem keeps_cancelOne (s : State) (op : Address) : Keeps s (s.cancelOne op) := by
  unfold State.cancelOne
  split
  · exact .refl s
  · have hkeeps : Keeps s (s.setOp op { s.ops op with cancelRequested := true }) :=
      keeps_setOp id (fun _ => rfl) id rfl
    dsimp only
    split
    · exact hkeeps
    · exact hkeeps.trans (keeps_queueCancel ..)

theorem cancelOne_requests (s : State) (op : Address) :
    ((s.cancelOne op).ops op).cancelRequested = true := by
  unfold State.cancelOne
  split
  · next hrequested => exact hrequested
  · dsimp only
    split
    · rw [ops_setOp_self]
    · refine (keeps_queueCancel ..).requested op ?_
      rw [ops_setOp_self]

theorem keeps_requestCancel (s : State) (op : Address) : Keeps s (s.requestCancel op) := by
  unfold State.requestCancel
  split
  · exact .refl s
  · exact keeps_cancelOne s op

theorem keeps_cancelAll (s : State) (ops : List Address) : Keeps s (s.cancelAll ops) := by
  induction ops generalizing s with
  | nil => exact .refl s
  | cons op rest ih => exact (keeps_cancelOne s op).trans (ih _)

theorem cancelAll_requests {ops : List Address} (s : State) (hop : op ∈ ops) :
    ((s.cancelAll ops).ops op).cancelRequested = true := by
  induction ops generalizing s with
  | nil => cases hop
  | cons first rest ih =>
    rcases List.mem_cons.mp hop with rfl | hrest
    · exact (keeps_cancelAll _ rest).requested op (cancelOne_requests s op)
    · exact ih _ hrest

theorem keeps_retryParked (s : State) (n : ℕ) (ops : List Address) : Keeps s (s.retryParked n ops).1 := by
  induction ops generalizing s n with
  | nil => exact .refl s
  | cons op rest ih =>
    unfold State.retryParked
    split
    · exact .refl s
    split
    · exact ih s n
    · rcases publishCancel_cases s op with hfull | ⟨k, hroom, -⟩
      · rw [hfull]
        exact .refl s
      · rw [hroom]
        refine Keeps.trans ?_ (ih _ _)
        refine keeps_op op rfl rfl rfl rfl rfl (fun other hne => ?_) ?_ ?_ ?_ ?_
        · rw [ops_setOp_of_ne hne]
          exact ops_setOp_of_ne hne
        all_goals
          rw [ops_setOp_self]
          dsimp only
          rw [ops_setOp_self]
        · exact id
        · exact id
        · exact id
        · rfl

theorem keeps_retryParkedCancels (s : State) (e : Entered) : Keeps s (s.retryParkedCancels e) := by
  have hkeeps := keeps_retryParked s 0 s.operations
  unfold State.retryParkedCancels
  dsimp only
  split
  · exact hkeeps.trans (submits_flush ..).keeps
  · exact hkeeps

theorem keeps_submitWakeup (s : State) : Keeps s s.submitWakeup := by
  rcases submitWakeup_cases s with ⟨heq, -⟩ | ⟨heq, -⟩ | ⟨k, heq, -⟩
  all_goals
    rw [heq]
    exact ⟨rfl, rfl, rfl, rfl, rfl, fun _ h => h, fun _ h => h, fun _ h => h, fun _ => rfl⟩

/-! ## The queues -/

theorem queues_requestCancel (s : State) (op : Address) : (s.requestCancel op).queues = s.queues := by
  unfold State.requestCancel
  split
  · rfl
  · exact queues_cancelOne s op

theorem queues_cancelAll (s : State) (ops : List Address) : (s.cancelAll ops).queues = s.queues := by
  induction ops generalizing s with
  | nil => rfl
  | cons op rest ih => exact (ih _).trans (queues_cancelOne s op)

theorem queues_submitWakeup (h : s.pollerDone = true) : s.submitWakeup.queues = s.queues := by
  rcases submitWakeup_cases s with ⟨heq, -⟩ | ⟨-, hdone, -⟩ | ⟨k, -, -, hdone, -⟩
  · rw [heq]
    rfl
  · rw [h] at hdone
    cases hdone
  · rw [h] at hdone
    cases hdone

/-- The operations, the submissions and the ready list. -/
def State.lists (s : State) : List Address × List Address × List Address :=
  (s.operations, s.submissions, s.ready)

theorem lists_of_queues (h : s'.queues = s.queues) : s'.lists = s.lists :=
  congrArg (fun queues => (queues.1, queues.2.1, queues.2.2.1)) h

theorem lists_submitWakeup (s : State) : s.submitWakeup.lists = s.lists := by
  rcases submitWakeup_cases s with ⟨heq, -⟩ | ⟨heq, -⟩ | ⟨k, heq, -⟩
  all_goals
    rw [heq]
    rfl

theorem lists_retryParked (s : State) (n : ℕ) (ops : List Address) :
    (s.retryParked n ops).1.lists = s.lists := by
  induction ops generalizing s n with
  | nil => rfl
  | cons op rest ih =>
    unfold State.retryParked
    split
    · rfl
    split
    · exact ih s n
    · rcases publishCancel_cases s op with hfull | ⟨k, hroom, -⟩
      · rw [hfull]
      · rw [hroom]
        exact ih _ _

theorem lists_retryParkedCancels (s : State) (e : Entered) :
    (s.retryParkedCancels e).lists = s.lists := by
  have hlists := lists_retryParked s 0 s.operations
  unfold State.retryParkedCancels
  dsimp only
  split
  · have hsubmits := submits_flush (s.retryParked 0 s.operations).1 e
    rw [← hlists, State.lists, hsubmits.operations, hsubmits.submissions, hsubmits.ready]
    rfl
  · exact hlists

/-! ## The completions -/

theorem keeps_complete (s : State) (completion : Cqe) : Keeps s (s.complete completion) := by
  unfold State.complete
  split
  · exact ⟨rfl, rfl, rfl, rfl, rfl, fun _ h => h, fun _ h => h, fun _ h => h, fun _ => rfl⟩
  · dsimp only
    split
    · refine Keeps.trans ?_ (keeps_retireIfDrained ..)
      exact ⟨rfl, rfl, rfl, rfl, rfl, fun _ h => h, fun _ h => h, fun _ h => h, fun _ => rfl⟩
    · exact keeps_retireIfDrained ..
  · refine Keeps.trans ?_ (keeps_retireIfDrained ..)
    exact keeps_setOp id id id rfl

end CCForge.UringContext
