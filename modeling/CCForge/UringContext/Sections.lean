import CCForge.UringContext.Invariants

/-!
# The sections under the mutex

A section that concerns one operation leaves the lives of the others as they are. The loops of the
longer sections take one operation after the other.
-/

namespace CCForge.UringContext

variable {s s' t : State} {op other : Address} {o : Op} {life life' : Life} {k : Kernel} {c : Choice}
  {u : UserData}

/-- The awaitable of a registered operation is suspended. -/
theorem OpOk.suspended (h : OpOk o life) (hregistered : life.registered = true) : o.stage = .suspended := by
  have hfits := h.stage
  cases hst : o.stage with
  | suspended => rfl
  | resuming =>
    rw [hst] at hfits
    rcases hfits with rfl | rfl <;> cases hregistered
  | finished =>
    rw [hst] at hfits
    rcases hfits with rfl | rfl <;> cases hregistered
  | _ =>
    rw [hst] at hfits
    obtain rfl : life = .fresh := hfits
    cases hregistered

theorem OpOk.fits (h : OpOk o life) (hregistered : life.registered = true)
    (hfresh : life' ≠ .fresh) (hresumed : life' ≠ .resumed) : o.stage.Fits life' := by
  rw [h.suspended hregistered]
  exact ⟨hfresh, hresumed⟩

/-! ## Frames -/

@[simp] theorem ops_setOp_self (s : State) (op : Address) (o : Op) : (s.setOp op o).ops op = o :=
  Function.update_self ..

@[simp] theorem ops_setOp_of_ne (hne : other ≠ op) : (s.setOp op o).ops other = s.ops other :=
  Function.update_of_ne hne ..

@[simp] theorem setOp_setOp (s : State) (op : Address) (o o' : Op) :
    (s.setOp op o).setOp op o' = s.setOp op o' := by
  simp [State.setOp]

@[simp] theorem setOp_self (s : State) (op : Address) : s.setOp op (s.ops op) = s := by
  simp [State.setOp]

/-- What concerns other operations stays. -/
structure Frame (s s' : State) (op : Address) : Prop where
  ops : ∀ other, other ≠ op → s'.ops other = s.ops other
  operations : ∀ other, other ≠ op → (other ∈ s'.operations ↔ other ∈ s.operations)
  submissions : ∀ other, other ≠ op → (other ∈ s'.submissions ↔ other ∈ s.submissions)
  ready : ∀ other, other ≠ op →
    (other ∈ s'.ready ++ s'.poller.batch ↔ other ∈ s.ready ++ s.poller.batch)
  targets : ∀ other, other ≠ op →
    s'.kernel.outstanding (.target other) = s.kernel.outstanding (.target other)
  cancels : ∀ other, other ≠ op →
    s'.kernel.outstanding (.cancel other) = s.kernel.outstanding (.cancel other)

theorem Frame.refl (s : State) (op : Address) : Frame s s op :=
  ⟨fun _ _ => rfl, fun _ _ => Iff.rfl, fun _ _ => Iff.rfl, fun _ _ => Iff.rfl, fun _ _ => rfl,
    fun _ _ => rfl⟩

theorem Frame.trans (h : Frame s s' op) (h' : Frame s' t op) : Frame s t op :=
  ⟨fun other hne => (h'.ops other hne).trans (h.ops other hne),
    fun other hne => (h'.operations other hne).trans (h.operations other hne),
    fun other hne => (h'.submissions other hne).trans (h.submissions other hne),
    fun other hne => (h'.ready other hne).trans (h.ready other hne),
    fun other hne => (h'.targets other hne).trans (h.targets other hne),
    fun other hne => (h'.cancels other hne).trans (h.cancels other hne)⟩

theorem frame_setOp (s : State) (op : Address) (o : Op) : Frame s (s.setOp op o) op :=
  ⟨fun _ hne => ops_setOp_of_ne hne, fun _ _ => Iff.rfl, fun _ _ => Iff.rfl, fun _ _ => Iff.rfl,
    fun _ _ => rfl, fun _ _ => rfl⟩

theorem Follows.of_frame (h : Follows s other life) (f : Frame s s' op) (hne : other ≠ op) :
    Follows s' other life where
  fields := by
    rw [f.ops other hne]
    exact h.fields
  operations := (f.operations other hne).trans h.operations
  submissions := (f.submissions other hne).trans h.submissions
  ready := (f.ready other hne).trans h.ready
  targets := (f.targets other hne).trans h.targets
  cancels := (f.cancels other hne).trans h.cancels

/-- A section that concerns one operation. -/
theorem Inv.of_frame (h : Inv s) (op : Address) (life : Life) (f : Frame s s' op) (hlife : Follows s' op life)
    (hoperations : s'.operations.Nodup) (hsubmissions : s'.submissions.Nodup)
    (hready : (s'.ready ++ s'.poller.batch).Nodup) (hparked : ParkedOk s') (hwakeup : WakeupOk s') :
    Inv s' where
  lives other := by
    by_cases he : other = op
    · subst he
      exact ⟨life, hlife⟩
    · obtain ⟨life, hl⟩ := h.lives other
      exact ⟨life, hl.of_frame f he⟩
  operations := hoperations
  submissions := hsubmissions
  ready := hready
  parked := hparked
  wakeup := hwakeup

/-- A section that concerns no operation. -/
theorem Inv.of_same (h : Inv s) (hops : s'.ops = s.ops) (hoperations : s'.operations = s.operations)
    (hsubmissions : s'.submissions = s.submissions)
    (hready : s'.ready ++ s'.poller.batch = s.ready ++ s.poller.batch)
    (hparked : s'.parkedCancels = s.parkedCancels)
    (htargets : ∀ op, s'.kernel.outstanding (.target op) = s.kernel.outstanding (.target op))
    (hcancels : ∀ op, s'.kernel.outstanding (.cancel op) = s.kernel.outstanding (.cancel op))
    (hwakeup : WakeupOk s') : Inv s' where
  lives op := by
    obtain ⟨life, hl⟩ := h.lives op
    refine ⟨life, ?_, ?_, ?_, ?_, ?_, ?_⟩
    · rw [hops]
      exact hl.fields
    · rw [hoperations]
      exact hl.operations
    · rw [hsubmissions]
      exact hl.submissions
    · rw [hready]
      exact hl.ready
    · rw [htargets]
      exact hl.targets
    · rw [hcancels]
      exact hl.cancels
  operations := hoperations ▸ h.operations
  submissions := hsubmissions ▸ h.submissions
  ready := hready ▸ h.ready
  parked := by
    obtain ⟨parked, hmem, hcard⟩ := h.parked
    exact ⟨parked, by rwa [hops], hparked.trans hcard⟩
  wakeup := hwakeup

/-! ## The counter of the parked cancels -/

theorem ParkedOk.congr (h : ParkedOk s) (hparked : s'.parkedCancels = s.parkedCancels)
    (hops : ∀ op, (s'.ops op).cancelParked = (s.ops op).cancelParked) : ParkedOk s' := by
  obtain ⟨parked, hmem, hcard⟩ := h
  exact ⟨parked, fun op => by rw [hops, hmem], hparked.trans hcard⟩

theorem ParkedOk.setOp (h : ParkedOk s) (hsame : o.cancelParked = (s.ops op).cancelParked) :
    ParkedOk (s.setOp op o) := by
  refine h.congr rfl fun other => ?_
  by_cases he : other = op
  · subst he
    rw [ops_setOp_self, hsame]
  · rw [ops_setOp_of_ne he]

theorem ParkedOk.park (h : ParkedOk s) (op : Address) (hparked : s'.parkedCancels = s.parkedCancels + 1)
    (hops : ∀ other, other ≠ op → (s'.ops other).cancelParked = (s.ops other).cancelParked)
    (hold : (s.ops op).cancelParked = false) (hnew : (s'.ops op).cancelParked = true) : ParkedOk s' := by
  obtain ⟨parked, hmem, hcard⟩ := h
  have hnot : op ∉ parked := by
    rw [hmem, hold]
    exact Bool.false_ne_true
  refine ⟨insert op parked, fun other => ?_, ?_⟩
  · by_cases he : other = op
    · subst he
      simp [hnew]
    · rw [Finset.mem_insert, or_iff_right he, hmem, hops other he]
  · rw [hparked, hcard, Finset.card_insert_of_notMem hnot]

theorem ParkedOk.unpark (h : ParkedOk s) (op : Address) (hparked : s'.parkedCancels = s.parkedCancels - 1)
    (hops : ∀ other, other ≠ op → (s'.ops other).cancelParked = (s.ops other).cancelParked)
    (hold : (s.ops op).cancelParked = true) (hnew : (s'.ops op).cancelParked = false) : ParkedOk s' := by
  obtain ⟨parked, hmem, hcard⟩ := h
  have hin : op ∈ parked := by rw [hmem, hold]
  refine ⟨parked.erase op, fun other => ?_, ?_⟩
  · by_cases he : other = op
    · subst he
      simp [hnew]
    · rw [Finset.mem_erase, and_iff_right he, hmem, hops other he]
  · rw [hparked, hcard, Finset.card_erase_of_mem hin]

theorem ParkedOk.pos (h : ParkedOk s) (hparked : (s.ops op).cancelParked = true) : 0 < s.parkedCancels := by
  obtain ⟨parked, hmem, hcard⟩ := h
  rw [hcard]
  exact Finset.card_pos.mpr ⟨op, (hmem op).mpr hparked⟩

/-! ## The flushes -/

/-- A NOP is with the kernel, as the flags tell. -/
def State.Wakes (s : State) : Prop := s.wakeupPublished = true ∨ s.wakeupInFlight = true

theorem WakeupOk.congr (h : WakeupOk s) (hwakes : s'.Wakes ↔ s.Wakes)
    (hneeded : s'.wakeupNeeded = s.wakeupNeeded)
    (houtstanding : s'.kernel.outstanding .wakeup = s.kernel.outstanding .wakeup) : WakeupOk s' where
  outstanding := by
    rw [houtstanding, h.outstanding]
    exact if_congr hwakes.symm rfl rfl
  needed hn := by
    have hnot : ¬s'.Wakes := by
      rw [hwakes]
      rintro (hp | hf)
      · rw [(h.needed (hneeded ▸ hn)).1] at hp
        cases hp
      · rw [(h.needed (hneeded ▸ hn)).2] at hf
        cases hf
    simpa [State.Wakes, not_or] using hnot

/-- The kernel and the flags of the NOP may change, but the NOP stays with the kernel. -/
structure Submits (s s' : State) : Prop where
  rest : s' = { s with
    kernel := s'.kernel, wakeupPublished := s'.wakeupPublished, wakeupInFlight := s'.wakeupInFlight,
    flushDiagnostic := s'.flushDiagnostic }
  wakes : s'.Wakes ↔ s.Wakes

theorem Submits.trans (h : Submits s s') (h' : Submits s' t) : Submits s t := by
  refine ⟨?_, h'.wakes.trans h.wakes⟩
  rw [h'.rest, h.rest]

theorem submits_kernel (s : State) (k : Kernel) : Submits s { s with kernel := k } := ⟨rfl, Iff.rfl⟩

theorem submits_recordFlush (s : State) (error : Option ErrorCode) : Submits s (s.recordFlush error) := by
  cases error with
  | none =>
    simp only [State.recordFlush]
    split
    · next hpublished => exact ⟨rfl, by simp [State.Wakes, hpublished]⟩
    · exact ⟨rfl, Iff.rfl⟩
  | some error =>
    simp only [State.recordFlush]
    split
    · exact ⟨rfl, Iff.rfl⟩
    · exact ⟨rfl, Iff.rfl⟩

theorem submits_flush (s : State) (e : Entered) : Submits s (s.flush e) :=
  (submits_kernel s _).trans (submits_recordFlush _ _)

theorem kernel_recordFlush (s : State) (error : Option ErrorCode) :
    (s.recordFlush error).kernel = s.kernel := by
  cases error with
  | none =>
    simp only [State.recordFlush]
    split <;> rfl
  | some error =>
    simp only [State.recordFlush]
    split <;> rfl

theorem kernel_flush (s : State) (e : Entered) : (s.flush e).kernel = (s.kernel.flushPublished e).1 :=
  kernel_recordFlush _ _

theorem outstanding_flush (s : State) (e : Entered) (u : UserData) :
    (s.flush e).kernel.outstanding u = s.kernel.outstanding u := by
  rw [kernel_flush, Kernel.outstanding_flushPublished]

theorem Submits.wakeupOk (h : Submits s s') (hwakeup : WakeupOk s)
    (houtstanding : s'.kernel.outstanding .wakeup = s.kernel.outstanding .wakeup) : WakeupOk s' :=
  hwakeup.congr h.wakes (by rw [h.rest]) houtstanding

/-- The entry that `publish_rw` has put at the end of the queue. -/
structure Published (s t : State) (op : Address) (sq : List Sqe) (sqe : Sqe) : Prop where
  submits : Submits s t
  userData : sqe.userData = .target op
  queue : t.kernel.sq = sq ++ [sqe]
  before : ∀ u, Kernel.outstanding { t.kernel with sq := sq } u = s.kernel.outstanding u

theorem Published.outstanding {sq : List Sqe} {sqe : Sqe} (h : Published s t op sq sqe) (u : UserData) :
    t.kernel.outstanding u = s.kernel.outstanding u + if u = .target op then 1 else 0 := by
  have hpublish := Kernel.outstanding_publish { t.kernel with sq := sq } sqe u
  rw [h.before, h.userData] at hpublish
  rw [← hpublish, ← h.queue]

theorem publishRw_cases (s : State) (op : Address) :
    s.kernel.publishRw (s.ops op).request (.target op) = (s.kernel, false) ∨
    ∃ k sq sqe, s.kernel.publishRw (s.ops op).request (.target op) = (k, true) ∧
      Published s { s with kernel := k } op sq sqe := by
  unfold Kernel.publishRw
  rcases s.kernel.tryPublish_cases ⟨.rw (s.ops op).request, .target op⟩ with ⟨hfull, -⟩ | ⟨hroom, -⟩
  · exact .inl hfull
  · exact .inr ⟨_, s.kernel.sq, _, hroom, submits_kernel s _, rfl, rfl, fun _ => rfl⟩

theorem publishOperation_cases (s : State) (op : Address) (c : Choice) :
    (∃ t, s.publishOperation op c = (t, false) ∧ Submits s t ∧
      ∀ u, t.kernel.outstanding u = s.kernel.outstanding u) ∨
    ∃ t sq sqe, s.publishOperation op c = (t, true) ∧ Published s t op sq sqe := by
  unfold State.publishOperation
  rcases publishRw_cases s op with hfull | ⟨k, sq, sqe, hroom, hpublished⟩
  · rw [hfull]
    dsimp only
    have hflush := submits_flush s (c.republish op)
    have hsame := outstanding_flush s (c.republish op)
    generalize s.flush (c.republish op) = t at hflush hsame
    rcases publishRw_cases t op with hfull' | ⟨k, sq, sqe, hroom, hpublished⟩
    · rw [hfull']
      exact .inl ⟨t, rfl, hflush, hsame⟩
    · rw [hroom]
      exact .inr ⟨_, sq, sqe, rfl, hflush.trans hpublished.submits, hpublished.userData, hpublished.queue,
        fun u => (hpublished.before u).trans (hsame u)⟩
  · rw [hroom]
    exact .inr ⟨_, sq, sqe, rfl, hpublished⟩

/-- The entry of an accepted operation is with the kernel, and a refused operation has none. -/
theorem submitLocked_spec (s : State) (op : Address) (c : Choice) :
    ∃ t accepted, s.submitLocked op c = (t, accepted) ∧ Submits s t ∧ ∀ u, t.kernel.outstanding u =
      s.kernel.outstanding u + if accepted = true ∧ u = .target op then 1 else 0 := by
  unfold State.submitLocked
  rcases publishOperation_cases s op c with ⟨t, heq, hsubmits, hsame⟩ | ⟨t, sq, sqe, heq, hpublished⟩
  · rw [heq]
    exact ⟨t, false, rfl, hsubmits, fun u => by simp [hsame]⟩
  · rw [heq]
    dsimp only
    have haccepted : ∃ t' accepted, (t.flush (c.submit op), true) = (t', accepted) ∧ Submits s t' ∧
        ∀ u, t'.kernel.outstanding u =
          s.kernel.outstanding u + if accepted = true ∧ u = .target op then 1 else 0 := by
      refine ⟨_, true, rfl, hpublished.submits.trans (submits_flush ..), fun u => ?_⟩
      rw [outstanding_flush, hpublished.outstanding]
      simp
    split
    · rcases (t.flush (c.submit op)).kernel.tryRetract_cases with ⟨heq, -⟩ | ⟨heq, hleft⟩
      · rw [heq]
        exact haccepted
      · rw [heq]
        refine ⟨_, false, rfl, (hpublished.submits.trans (submits_flush ..)).trans (submits_kernel ..),
          fun u => ?_⟩
        obtain ⟨n, hn⟩ := t.kernel.flushPublished_cases (c.submit op)
        rw [kernel_flush, hn] at hleft ⊢
        rw [Kernel.outstanding_retract hpublished.queue hleft, hpublished.before]
        simp
    · exact haccepted

/-! ## The retirement -/

theorem retireIfDrained_eq (s : State) (op : Address) : s.retireIfDrained op =
    if ((s.ops op).pendingCqes + 255) % 256 ≠ 0 then
      s.setOp op { s.ops op with pendingCqes := ((s.ops op).pendingCqes + 255) % 256 }
    else
      State.setOp { s with
          operations := s.operations.erase op
          parkedCancels := if (s.ops op).cancelParked then s.parkedCancels - 1 else s.parkedCancels
          ready := if (s.ops op).phase = .suspended then s.ready ++ [op] else s.ready } op
        { s.ops op with
          pendingCqes := ((s.ops op).pendingCqes + 255) % 256
          registered := false
          cancelParked := false
          phase := .completed
          retirements := (s.ops op).retirements + 1 } := by
  by_cases hpending : ((s.ops op).pendingCqes + 255) % 256 = 0
  · cases hparked : (s.ops op).cancelParked with
    | true =>
      by_cases hphase : (s.ops op).phase = .suspended
      · simp [State.retireIfDrained, State.unlinkOperation, State.setOp, hpending, hparked, hphase]
      · simp [State.retireIfDrained, State.unlinkOperation, State.setOp, hpending, hparked, hphase]
    | false =>
      by_cases hphase : (s.ops op).phase = .suspended
      · simp [State.retireIfDrained, State.unlinkOperation, State.setOp, hpending, hparked, hphase]
      · simp [State.retireIfDrained, State.unlinkOperation, State.setOp, hpending, hparked, hphase]
  · rw [if_pos hpending]
    simp [State.retireIfDrained, hpending]

theorem retireIfDrained_left (h : (s.ops op).pendingCqes = 2) :
    s.retireIfDrained op = s.setOp op { s.ops op with pendingCqes := 1 } := by
  rw [retireIfDrained_eq, h, if_pos (by decide)]

theorem retireIfDrained_last (h : (s.ops op).pendingCqes = 1) (hphase : (s.ops op).phase = .suspended) :
    s.retireIfDrained op = State.setOp { s with
        operations := s.operations.erase op
        parkedCancels := if (s.ops op).cancelParked then s.parkedCancels - 1 else s.parkedCancels
        ready := s.ready ++ [op] } op
      { s.ops op with
        pendingCqes := 0
        registered := false
        cancelParked := false
        phase := .completed
        retirements := (s.ops op).retirements + 1 } := by
  rw [retireIfDrained_eq, h, if_neg (by decide), if_pos hphase]

theorem frame_retireIfDrained (s : State) (op : Address) : Frame s (s.retireIfDrained op) op := by
  rw [retireIfDrained_eq]
  split
  · exact frame_setOp ..
  · refine ⟨fun _ hne => ops_setOp_of_ne hne, fun _ hne => List.mem_erase_of_ne hne, fun _ _ => Iff.rfl,
      fun other hne => ?_, fun _ _ => rfl, fun _ _ => rfl⟩
    simp only [State.setOp, List.mem_append]
    split
    · rw [List.mem_append, List.mem_singleton, or_iff_left hne]
    · exact Iff.rfl

/-- The last completion of an operation is drained. -/
structure Drained (o : Op) : Prop where
  pendingCqes : o.pendingCqes = 1
  submissionPending : o.submissionPending = false
  phase : o.phase = .suspended
  retirements : o.retirements = 0
  resumptions : o.resumptions = 0
  stage : o.stage = .suspended
  token : TokenOk o

/-- An operation with no entry and no completion left is retired, and becomes ready. -/
theorem Inv.retire (h : Inv s) (f : Frame s t op) (hl : Follows s op life)
    (hregistered : life.registered = true) (hdrained : Drained (t.ops op))
    (hparked : (t.ops op).cancelParked = (s.ops op).cancelParked)
    (hoperations : t.operations = s.operations) (hready : t.ready = s.ready)
    (hbatch : t.poller.batch = s.poller.batch) (hcount : t.parkedCancels = s.parkedCancels)
    (hsubmissions : op ∉ t.submissions ∧ t.submissions.Nodup)
    (houtstanding : t.kernel.outstanding (.target op) = 0 ∧ t.kernel.outstanding (.cancel op) = 0)
    (hwakeup : WakeupOk t) : Inv (t.retireIfDrained op) := by
  have hnot : op ∉ t.ready ++ t.poller.batch := by
    rw [hready, hbatch, hl.ready]
    rintro rfl
    cases hregistered
  have hothers : ∀ other, other ≠ op → (t.ops other).cancelParked = (s.ops other).cancelParked :=
    fun other hne => by rw [f.ops other hne]
  have hframe := f.trans (frame_retireIfDrained t op)
  rw [retireIfDrained_last hdrained.pendingCqes hdrained.phase] at hframe ⊢
  refine h.of_frame op .ready hframe ?_ ?_ hsubmissions.2 ?_ ?_ ?_
  · constructor
    · rw [ops_setOp_self]
      exact {
        valid := trivial
        registered := rfl
        pendingCqes := rfl
        submissionPending := hdrained.submissionPending
        cancelParked := rfl
        cancelRequested := by rintro _ ⟨⟩
        cancelPublished := by rintro _ ⟨⟩
        phase := rfl
        retirements := congrArg (· + 1) hdrained.retirements
        resumptions := hdrained.resumptions
        stage := by
          rw [hdrained.stage]
          exact ⟨by rintro ⟨⟩, by rintro ⟨⟩⟩
        token := { hdrained.token with requested := by rintro _ ⟨⟩ } }
    · refine iff_of_false ?_ (by rintro ⟨⟩)
      simp only [State.setOp, hoperations]
      exact h.operations.not_mem_erase
    · refine iff_of_false hsubmissions.1 ?_
      rintro ⟨_, ⟨⟩⟩
    · refine iff_of_true ?_ rfl
      simp [State.setOp]
    · exact houtstanding.1
    · exact houtstanding.2
  · simp only [State.setOp, hoperations]
    exact h.operations.erase op
  · simp only [State.setOp]
    have hnodup : (t.ready ++ t.poller.batch).Nodup := by
      rw [hready, hbatch]
      exact h.ready
    rw [List.append_assoc, List.singleton_append, List.nodup_middle]
    exact List.nodup_cons.mpr ⟨hnot, hnodup⟩
  · cases hp : (s.ops op).cancelParked with
    | true =>
      refine h.parked.unpark op ?_ ?_ hp ?_
      · simp [State.setOp, hparked, hp, hcount]
      · intro other hne
        rw [ops_setOp_of_ne hne]
        exact hothers other hne
      · rw [ops_setOp_self]
    | false =>
      refine h.parked.congr ?_ fun other => ?_
      · simp [State.setOp, hparked, hp, hcount]
      · by_cases he : other = op
        · subst he
          rw [ops_setOp_self, hp]
        · rw [ops_setOp_of_ne he]
          exact hothers other he
  · exact hwakeup.congr Iff.rfl rfl rfl

end CCForge.UringContext
