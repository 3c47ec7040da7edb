import CCForge.UringContext.Submissions

/-!
# Cancels and wakeups

The cancellation of a queued operation is left to the poller. That of a submitted operation is
published, or parked while the queue has no room.
-/

namespace CCForge.UringContext

variable {s : State} {op other : Address} {o : Op} {life : Life} {k : Kernel}

theorem publishCancel_cases (s : State) (op : Address) : s.publishCancel op = (s, false) ∨
    ∃ k : Kernel, s.publishCancel op = (State.setOp { s with kernel := k } op
      { s.ops op with cancelPublished := true, pendingCqes := ((s.ops op).pendingCqes + 1) % 256 }, true) ∧
      ∀ u, k.outstanding u = s.kernel.outstanding u + if u = .cancel op then 1 else 0 := by
  unfold State.publishCancel Kernel.publishCancel
  rcases s.kernel.tryPublish_cases ⟨.asyncCancel (.target op), .cancel op⟩ with ⟨hfull, -⟩ | ⟨hroom, -⟩
  · rw [hfull]
    exact .inl rfl
  · rw [hroom]
    exact .inr ⟨_, rfl, fun u => Kernel.outstanding_publish ..⟩

/-! ## A request -/

theorem cancelOne_requested (h : (s.ops op).cancelRequested = true) : s.cancelOne op = s := by
  rw [State.cancelOne, if_pos h]

theorem cancelOne_queued (h : (s.ops op).cancelRequested = false)
    (hpending : (s.ops op).submissionPending = true) :
    s.cancelOne op = s.setOp op { s.ops op with cancelRequested := true } := by
  simp [State.cancelOne, h, hpending]

/-- The cancel of a submitted operation is parked or published. -/
theorem cancelOne_submitted (h : (s.ops op).cancelRequested = false)
    (hpending : (s.ops op).submissionPending = false) (hcqes : (s.ops op).pendingCqes = 1) :
    s.cancelOne op = State.setOp { s with wakeFd := true, parkedCancels := s.parkedCancels + 1 } op
      { s.ops op with cancelRequested := true, cancelParked := true } ∨
    ∃ k : Kernel, s.cancelOne op = State.setOp { s with wakeFd := true, kernel := k } op
      { s.ops op with cancelRequested := true, cancelPublished := true, pendingCqes := 2 } ∧
      ∀ u, k.outstanding u = s.kernel.outstanding u + if u = .cancel op then 1 else 0 := by
  have hqueue : s.cancelOne op =
      (s.setOp op { s.ops op with cancelRequested := true }).queueCancel op := by
    simp [State.cancelOne, h, hpending]
  rw [hqueue, State.queueCancel]
  rcases publishCancel_cases (s.setOp op { s.ops op with cancelRequested := true }).signalPoller op with
    hfull | ⟨k, hroom, hk⟩
  · rw [hfull]
    left
    simp [State.setOp, State.signalPoller]
  · rw [hroom]
    refine .inr ⟨k, ?_, hk⟩
    simp [State.setOp, State.signalPoller, hcqes]

/-- The kernel takes a cancel, and nothing else of an operation changes in the context. -/
theorem frame_cancel {n : ℕ} {w : Bool}
    (hk : ∀ u, k.outstanding u = s.kernel.outstanding u + if u = .cancel op then 1 else 0) :
    Frame s (State.setOp { s with wakeFd := w, kernel := k, parkedCancels := n } op o) op where
  ops _ hne := ops_setOp_of_ne hne
  operations _ _ := Iff.rfl
  submissions _ _ := Iff.rfl
  ready _ _ := Iff.rfl
  targets other hne := by
    change k.outstanding _ = _
    rw [hk, if_neg (by rintro ⟨⟩), Nat.add_zero]
  cancels other hne := by
    change k.outstanding _ = _
    rw [hk, if_neg (by rintro ⟨⟩; exact hne rfl), Nat.add_zero]

/-- The cancel of a submitted operation is published. -/
theorem Inv.cancelPublished {cancel : CancelState} {n : ℕ} {w : Bool} (h : Inv s)
    (hl : Follows s op (.submitted true cancel)) (hnone : cancel = .none ∨ cancel = .parked)
    (hk : ∀ u, k.outstanding u = s.kernel.outstanding u + if u = .cancel op then 1 else 0)
    (hparked : ParkedOk (State.setOp { s with wakeFd := w, kernel := k, parkedCancels := n } op
      { s.ops op with
        cancelRequested := true, cancelPublished := true, pendingCqes := 2, cancelParked := false })) :
    Inv (State.setOp { s with wakeFd := w, kernel := k, parkedCancels := n } op
      { s.ops op with
        cancelRequested := true, cancelPublished := true, pendingCqes := 2, cancelParked := false }) := by
  have hcancels : Life.cancels (.submitted true cancel) = 0 := by
    rcases hnone with rfl | rfl <;> rfl
  refine h.of_frame op (.submitted true .published) (frame_cancel hk) ?_ h.operations h.submissions
    h.ready hparked (h.wakeup.congr Iff.rfl rfl ?_)
  · constructor
    · rw [ops_setOp_self]
      exact { hl.fields with
        valid := .inl rfl
        pendingCqes := rfl
        cancelParked := rfl
        cancelRequested := by
          rintro _ ⟨⟩
          rfl
        cancelPublished := by
          rintro _ ⟨⟩
          rfl
        stage := hl.fields.fits rfl (by rintro ⟨⟩) (by rintro ⟨⟩)
        token := { hl.fields.token with requested := fun _ _ => rfl } }
    · exact hl.operations
    · refine iff_of_false ?_ (by rintro ⟨_, ⟨⟩⟩)
      exact mt hl.submissions.mp (by rintro ⟨_, ⟨⟩⟩)
    · exact iff_of_false (mt hl.ready.mp (by rintro ⟨⟩)) (by rintro ⟨⟩)
    · change k.outstanding _ = _
      rw [hk, if_neg (by rintro ⟨⟩), Nat.add_zero]
      exact hl.targets
    · change k.outstanding _ = _
      rw [hk, if_pos rfl, hl.cancels, hcancels]
      rfl
  · change k.outstanding _ = _
    rw [hk, if_neg (by rintro ⟨⟩), Nat.add_zero]

/-- The cancel of a submitted operation is parked. -/
theorem Inv.cancelParked {w : Bool} (h : Inv s) (hl : Follows s op (.submitted true .none)) :
    Inv (State.setOp { s with wakeFd := w, parkedCancels := s.parkedCancels + 1 } op
      { s.ops op with cancelRequested := true, cancelParked := true }) := by
  refine h.of_frame op (.submitted true .parked) ?_ ?_ h.operations h.submissions h.ready ?_
    (h.wakeup.congr Iff.rfl rfl rfl)
  · exact ⟨fun _ hne => ops_setOp_of_ne hne, fun _ _ => Iff.rfl, fun _ _ => Iff.rfl, fun _ _ => Iff.rfl,
      fun _ _ => rfl, fun _ _ => rfl⟩
  · constructor
    · rw [ops_setOp_self]
      exact { hl.fields with
        valid := .inl rfl
        cancelParked := rfl
        cancelRequested := by
          rintro _ ⟨⟩
          rfl
        cancelPublished := by
          rintro _ ⟨⟩
          exact hl.fields.cancelPublished _ rfl
        stage := hl.fields.fits rfl (by rintro ⟨⟩) (by rintro ⟨⟩)
        token := { hl.fields.token with requested := fun _ _ => rfl } }
    · exact hl.operations
    · refine iff_of_false ?_ (by rintro ⟨_, ⟨⟩⟩)
      exact mt hl.submissions.mp (by rintro ⟨_, ⟨⟩⟩)
    · exact iff_of_false (mt hl.ready.mp (by rintro ⟨⟩)) (by rintro ⟨⟩)
    · exact hl.targets
    · exact hl.cancels
  · refine h.parked.park op rfl (fun other hne => ?_) hl.fields.cancelParked ?_
    · rw [ops_setOp_of_ne hne]
    · rw [ops_setOp_self]

/-- The fields of an operation change, and its life with them. -/
theorem Inv.setOp (h : Inv s) (life' : Life) (hl : Follows s op life) (hfields : OpOk o life')
    (hregistered : life'.registered = life.registered)
    (hqueued : (∃ requested, life' = .queued requested) ↔ ∃ requested, life = .queued requested)
    (hready : life' = .ready ↔ life = .ready) (htargets : life'.targets = life.targets)
    (hcancels : life'.cancels = life.cancels) (hparked : life'.cancelParked = life.cancelParked) :
    Inv (s.setOp op o) := by
  refine h.of_frame op life' (frame_setOp ..) ?_ h.operations h.submissions h.ready
    (h.parked.setOp ?_) (h.wakeup.congr Iff.rfl rfl rfl)
  · constructor
    · rw [ops_setOp_self]
      exact hfields
    · rw [hregistered]
      exact hl.operations
    · exact hl.submissions.trans hqueued.symm
    · exact hl.ready.trans hready.symm
    · exact hl.targets.trans htargets.symm
    · exact hl.cancels.trans hcancels.symm
  · rw [hfields.cancelParked, hl.fields.cancelParked, hparked]

theorem Inv.cancelOne (h : Inv s) (hregistered : (s.ops op).registered = true) : Inv (s.cancelOne op) := by
  cases hrequested : (s.ops op).cancelRequested with
  | true =>
    rw [cancelOne_requested hrequested]
    exact h
  | false =>
    obtain ⟨life, hl⟩ := h.lives op
    rw [hl.fields.registered] at hregistered
    have hfields := hl.fields
    cases life with
    | queued requested =>
      rw [cancelOne_queued hrequested hfields.submissionPending]
      refine h.setOp (.queued true) hl ?_ rfl ?_ ?_ rfl rfl rfl
      · exact { hfields with
          valid := trivial
          cancelRequested := by
            rintro _ ⟨⟩
            rfl
          stage := hfields.fits rfl (by rintro ⟨⟩) (by rintro ⟨⟩)
          token := { hfields.token with requested := fun _ _ => rfl } }
      · exact iff_of_true ⟨_, rfl⟩ ⟨_, rfl⟩
      · exact iff_of_false (by rintro ⟨⟩) (by rintro ⟨⟩)
    | submitted target cancel =>
      obtain rfl : cancel = .none := by
        cases cancel with
        | none => rfl
        | _ => exact absurd (hfields.cancelRequested _ rfl) (by rw [hrequested]; rintro ⟨⟩)
      obtain rfl : target = true := hfields.valid.resolve_right (by rintro ⟨⟩)
      rcases cancelOne_submitted hrequested hfields.submissionPending hfields.pendingCqes with
        heq | ⟨k, heq, hk⟩
      · rw [heq]
        exact h.cancelParked hl
      · rw [heq]
        have hparked : (s.ops op).cancelParked = false := hfields.cancelParked
        have hinv := h.cancelPublished (n := s.parkedCancels) (w := true) hl (.inl rfl) hk
          ((h.parked.congr rfl fun _ => rfl).setOp hparked.symm)
        rwa [← hparked] at hinv
    | _ => cases hregistered

/-- The lists and the flags of the wakeup. -/
def State.queues (s : State) : List Address × List Address × List Address × Bool × Bool × Bool :=
  (s.operations, s.submissions, s.ready, s.wakeupNeeded, s.wakeupPublished, s.wakeupInFlight)

theorem queues_queueCancel (s : State) (op : Address) : (s.queueCancel op).queues = s.queues := by
  unfold State.queueCancel
  rcases publishCancel_cases s.signalPoller op with hfull | ⟨k, hroom, -⟩
  · rw [hfull]
    rfl
  · rw [hroom]
    rfl

theorem queues_cancelOne (s : State) (op : Address) : (s.cancelOne op).queues = s.queues := by
  unfold State.cancelOne
  split
  · rfl
  · dsimp only
    split
    · rfl
    · exact queues_queueCancel ..

theorem Inv.registered_iff (h : Inv s) (op : Address) :
    (s.ops op).registered = true ↔ op ∈ s.operations := by
  obtain ⟨life, hl⟩ := h.lives op
  rw [hl.operations, hl.fields.registered]

theorem Inv.requestCancel (h : Inv s) (op : Address) : Inv (s.requestCancel op) := by
  unfold State.requestCancel
  split
  · exact h
  · next hregistered => exact h.cancelOne (Bool.eq_true_of_not_eq_false hregistered)

/-- The loop of a stop, over operations of the list. -/
theorem Inv.cancelAll {ops : List Address} (h : Inv s) (hops : ∀ op ∈ ops, op ∈ s.operations) :
    Inv (s.cancelAll ops) := by
  induction ops generalizing s with
  | nil => exact h
  | cons op rest ih =>
    refine ih (h.cancelOne ((h.registered_iff op).mpr (hops op List.mem_cons_self))) fun other hmem => ?_
    rw [show (s.cancelOne op).operations = s.operations from congrArg Prod.fst (queues_cancelOne s op)]
    exact hops other (List.mem_cons_of_mem op hmem)

/-! ## The parked cancels -/

/-- A parked cancel is published. -/
theorem Inv.unpark (h : Inv s) (hparked : (s.ops op).cancelParked = true)
    (hk : ∀ u, k.outstanding u = s.kernel.outstanding u + if u = .cancel op then 1 else 0) :
    Inv (State.setOp { s with kernel := k, parkedCancels := s.parkedCancels - 1 } op
      { s.ops op with
        cancelPublished := true
        pendingCqes := ((s.ops op).pendingCqes + 1) % 256
        cancelParked := false }) := by
  obtain ⟨life, hl⟩ := h.lives op
  have hfields := hl.fields
  cases life with
  | submitted target cancel =>
    obtain rfl : cancel = .parked := by
      have hcancel := hfields.cancelParked
      rw [hparked] at hcancel
      cases cancel with
      | parked => rfl
      | _ => cases hcancel
    obtain rfl : target = true := hfields.valid.resolve_right (by rintro ⟨⟩)
    have hrequested : (s.ops op).cancelRequested = true := hfields.cancelRequested _ rfl
    have hcqes : (s.ops op).pendingCqes = 1 := hfields.pendingCqes
    have heq : { s.ops op with
        cancelPublished := true, pendingCqes := ((s.ops op).pendingCqes + 1) % 256, cancelParked := false } =
        { s.ops op with
          cancelRequested := true, cancelPublished := true, pendingCqes := 2, cancelParked := false } := by
      simp [hrequested, hcqes]
    rw [heq]
    refine h.cancelPublished (w := s.wakeFd) hl (.inr rfl) hk ?_
    refine h.parked.unpark op rfl (fun other hne => ?_) hparked ?_
    · rw [ops_setOp_of_ne hne]
    · rw [ops_setOp_self]
  | _ =>
    have hcancel := hfields.cancelParked
    rw [hparked] at hcancel
    cases hcancel

theorem Inv.retryParked (h : Inv s) (n : ℕ) (ops : List Address) : Inv (s.retryParked n ops).1 := by
  induction ops generalizing s n with
  | nil => exact h
  | cons op rest ih =>
    unfold State.retryParked
    split
    · exact h
    split
    · exact ih h n
    · next hparked =>
      rcases publishCancel_cases s op with hfull | ⟨k, hroom, hk⟩
      · rw [hfull]
        exact h
      · rw [hroom]
        have hinv := h.unpark (Bool.eq_true_of_not_eq_false hparked) hk
        dsimp only
        refine ih ?_ _
        simpa only [State.setOp, Function.update_idem, Function.update_self] using hinv

theorem Inv.retryParkedCancels (h : Inv s) (e : Entered) : Inv (s.retryParkedCancels e) := by
  have hinv := h.retryParked 0 s.operations
  unfold State.retryParkedCancels
  dsimp only
  split
  · exact hinv.flush e
  · exact hinv

/-! ## The wakeup -/

theorem submitWakeup_cases (s : State) :
    (s.submitWakeup = { s with wakeFd := true } ∧ (s.pollerDone = true ∨ s.Wakes)) ∨
    (s.submitWakeup = { s with wakeFd := true, wakeupNeeded := true, flushDiagnostic := some ENOBUFS } ∧
      s.pollerDone = false ∧ ¬s.Wakes) ∨
    ∃ k : Kernel, s.submitWakeup =
        { s with wakeFd := true, kernel := k, wakeupNeeded := false, wakeupPublished := true } ∧
      (∀ u, k.outstanding u = s.kernel.outstanding u + if u = .wakeup then 1 else 0) ∧
      s.pollerDone = false ∧ ¬s.Wakes := by
  unfold State.submitWakeup State.signalPoller Kernel.publishNop
  dsimp only
  split
  · next hdone =>
    refine .inl ⟨rfl, hdone.imp_right fun hwakes => ?_⟩
    exact hwakes.symm
  · next hdone =>
    obtain ⟨hdone, hwakes⟩ := not_or.mp hdone
    have hnone : ¬s.Wakes := fun hw => hwakes hw.symm
    rcases s.kernel.tryPublish_cases ⟨.nop, .wakeup⟩ with ⟨hfull, -⟩ | ⟨hroom, -⟩
    · rw [hfull]
      exact .inr (.inl ⟨rfl, Bool.eq_false_iff.mpr hdone, hnone⟩)
    · rw [hroom]
      exact .inr (.inr ⟨_, rfl, fun u => Kernel.outstanding_publish .., Bool.eq_false_iff.mpr hdone, hnone⟩)

theorem WakeupOk.none (h : WakeupOk s) (hnone : ¬s.Wakes) : s.kernel.outstanding .wakeup = 0 := by
  rw [h.outstanding]
  exact if_neg hnone

theorem Inv.submitWakeup (h : Inv s) : Inv s.submitWakeup := by
  rcases submitWakeup_cases s with ⟨heq, -⟩ | ⟨heq, -, hnone⟩ | ⟨k, heq, hk, -, hnone⟩
  · rw [heq]
    exact h.of_same rfl rfl rfl rfl rfl (fun _ => rfl) (fun _ => rfl) (h.wakeup.congr Iff.rfl rfl rfl)
  · rw [heq]
    refine h.of_same rfl rfl rfl rfl rfl (fun _ => rfl) (fun _ => rfl) ⟨h.wakeup.outstanding, fun _ => ?_⟩
    simpa [State.Wakes, not_or] using hnone
  · rw [heq]
    refine h.of_same rfl rfl rfl rfl rfl (fun op => ?_) (fun op => ?_) ⟨?_, by rintro ⟨⟩⟩
    · change k.outstanding _ = _
      rw [hk, if_neg (by rintro ⟨⟩), Nat.add_zero]
    · change k.outstanding _ = _
      rw [hk, if_neg (by rintro ⟨⟩), Nat.add_zero]
    · change k.outstanding _ = _
      rw [hk, if_pos rfl, h.wakeup.none hnone, if_pos (.inl rfl)]

end CCForge.UringContext
