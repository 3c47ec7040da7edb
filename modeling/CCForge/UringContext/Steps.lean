import CCForge.UringContext.Keeps
import CCForge.Lib.Run

/-!
# The steps

The invariant holds after every step of the poller, of an awaitable and of the threads that stop
tokens and the context.
-/

namespace CCForge.UringContext

variable {s s' t : State} {op other : Address} {o : Op} {life : Life} {k : Kernel} {c : Choice}
  {p : PollerStage} {d : Option ErrorCode} {r : ℤ}

/-! ## A completion -/

/-- A completion of an operation is taken from the queue. -/
def State.taken (s : State) (k : Kernel) (p : PollerStage) (d : Option ErrorCode) (op : Address) (r : ℤ) :
    State :=
  State.setOp { s with kernel := k, poller := p, flushDiagnostic := d } op { s.ops op with result := r }

theorem frame_taken (hp : p.batch = s.poller.batch)
    (htargets : ∀ other, other ≠ op → k.outstanding (.target other) = s.kernel.outstanding (.target other))
    (hcancels : ∀ other, other ≠ op →
      k.outstanding (.cancel other) = s.kernel.outstanding (.cancel other)) :
    Frame s (s.taken k p d op r) op where
  ops _ hne := ops_setOp_of_ne hne
  operations _ _ := Iff.rfl
  submissions _ _ := Iff.rfl
  ready other _ := by
    change other ∈ s.ready ++ p.batch ↔ _
    rw [hp]
  targets := htargets
  cancels := hcancels

/-- The other completion of an operation is still to come. -/
theorem Inv.left {target : Bool} {cancel : CancelState} (h : Inv s)
    (hl : Follows s op (.submitted true .published))
    (f : Frame s (s.taken k p d op r) op) (hp : p.batch = s.poller.batch)
    (hlife : target = false ∧ cancel = .published ∨ target = true ∧ cancel = .drained)
    (htargets : k.outstanding (.target op) = Life.targets (.submitted target cancel))
    (hcancels : k.outstanding (.cancel op) = Life.cancels (.submitted target cancel))
    (hwakeup : WakeupOk (s.taken k p d op r)) : Inv ((s.taken k p d op r).retireIfDrained op) := by
  have hfields := hl.fields
  have hcqes : ((s.taken k p d op r).ops op).pendingCqes = 2 := by
    rw [State.taken, ops_setOp_self]
    exact hfields.pendingCqes
  rw [retireIfDrained_left hcqes]
  refine h.of_frame op (.submitted target cancel) (f.trans (frame_setOp ..)) ?_ h.operations
    h.submissions ?_ ?_ (hwakeup.congr Iff.rfl rfl rfl)
  · have hops : (s.taken k p d op r).ops op = { s.ops op with result := r } := ops_setOp_self ..
    constructor
    · rw [ops_setOp_self, hops]
      exact {
        valid := hlife.symm.imp And.left And.right
        registered := hfields.registered
        pendingCqes := by rcases hlife with ⟨rfl, rfl⟩ | ⟨rfl, rfl⟩ <;> rfl
        submissionPending := hfields.submissionPending
        cancelParked := by
          rcases hlife with ⟨rfl, rfl⟩ | ⟨rfl, rfl⟩
          · exact hfields.cancelParked
          · exact hfields.cancelParked
        cancelRequested := by
          rcases hlife with ⟨rfl, rfl⟩ | ⟨rfl, rfl⟩
          · exact hfields.cancelRequested
          · exact hfields.cancelRequested
        cancelPublished := by
          rcases hlife with ⟨rfl, rfl⟩ | ⟨rfl, rfl⟩
          · exact hfields.cancelPublished
          · exact hfields.cancelPublished
        phase := hfields.phase
        retirements := hfields.retirements
        resumptions := hfields.resumptions
        stage := hfields.fits rfl (by rintro ⟨⟩) (by rintro ⟨⟩)
        token := { hfields.token with } }
    · exact hl.operations
    · refine iff_of_false ?_ (by rintro ⟨_, ⟨⟩⟩)
      exact mt hl.submissions.mp (by rintro ⟨_, ⟨⟩⟩)
    · change op ∈ s.ready ++ p.batch ↔ _
      rw [hp]
      exact iff_of_false (mt hl.ready.mp (by rintro ⟨⟩)) (by rintro ⟨⟩)
    · exact htargets
    · exact hcancels
  · change (s.ready ++ p.batch).Nodup
    rw [hp]
    exact h.ready
  · refine h.parked.congr rfl fun other => ?_
    by_cases he : other = op
    · subst he
      rw [ops_setOp_self, State.taken, ops_setOp_self]
    · rw [ops_setOp_of_ne he, State.taken, ops_setOp_of_ne he]

/-- The last completion of an operation is taken. -/
theorem Inv.last {target : Bool} {cancel : CancelState} (h : Inv s)
    (hl : Follows s op (.submitted target cancel)) (f : Frame s (s.taken k p d op r) op)
    (hp : p.batch = s.poller.batch) (hone : Life.pendingCqes (.submitted target cancel) = 1)
    (htargets : k.outstanding (.target op) = 0) (hcancels : k.outstanding (.cancel op) = 0)
    (hwakeup : WakeupOk (s.taken k p d op r)) : Inv ((s.taken k p d op r).retireIfDrained op) := by
  have hfields := hl.fields
  have hops : (s.taken k p d op r).ops op = { s.ops op with result := r } := ops_setOp_self ..
  refine h.retire f hl rfl ?_ ?_ rfl rfl hp rfl ⟨?_, h.submissions⟩ ⟨htargets, hcancels⟩ hwakeup
  · rw [hops]
    exact {
      pendingCqes := hfields.pendingCqes.trans hone
      submissionPending := hfields.submissionPending
      phase := hfields.phase
      retirements := hfields.retirements
      resumptions := hfields.resumptions
      stage := hfields.suspended rfl
      token := { hfields.token with } }
  · rw [hops]
  · exact mt hl.submissions.mp (by rintro ⟨_, ⟨⟩⟩)

variable {cq : List Cqe} {res : ℤ}

/-- The completion of the target. -/
theorem Inv.completeTarget (h : Inv s) (hcq : s.kernel.cq = ⟨.target op, res⟩ :: cq)
    (hp : p.batch = s.poller.batch) :
    Inv ({ s with kernel := { s.kernel with cq := cq }, poller := p }.complete ⟨.target op, res⟩) := by
  have htake := Kernel.outstanding_take hcq
  obtain ⟨life, hl⟩ := h.lives op
  have htargets := htake (.target op)
  rw [if_pos rfl, hl.targets] at htargets
  have hother : ∀ u, u ≠ .target op →
      Kernel.outstanding { s.kernel with cq := cq } u = s.kernel.outstanding u := fun u hne => by
    have hu := htake u
    rwa [if_neg fun he => hne he.symm, Nat.add_zero] at hu
  have hframe : Frame s (s.taken { s.kernel with cq := cq } p s.flushDiagnostic op res) op :=
    frame_taken hp (fun other hne => hother _ (by rintro ⟨⟩; exact hne rfl))
      fun other _ => hother _ (by rintro ⟨⟩)
  have hwakeup : WakeupOk (s.taken { s.kernel with cq := cq } p s.flushDiagnostic op res) :=
    h.wakeup.congr Iff.rfl rfl (hother _ (by rintro ⟨⟩))
  have hcancels := (hother (.cancel op) (by rintro ⟨⟩)).trans hl.cancels
  change Inv ((s.taken { s.kernel with cq := cq } p s.flushDiagnostic op res).retireIfDrained op)
  cases life with
  | submitted target cancel =>
    cases target with
    | true =>
      have hzero : Kernel.outstanding { s.kernel with cq := cq } (.target op) = 0 := Nat.succ.inj htargets
      cases cancel with
      | published =>
        exact h.left hl hframe hp (.inl ⟨rfl, rfl⟩) hzero hcancels hwakeup
      | _ => exact h.last hl hframe hp rfl hzero hcancels hwakeup
    | false => cases htargets
  | _ => cases htargets

/-- The completion of the cancel. -/
theorem Inv.completeCancel (h : Inv s) (hcq : s.kernel.cq = ⟨.cancel op, res⟩ :: cq)
    (hp : p.batch = s.poller.batch) :
    Inv ({ s with kernel := { s.kernel with cq := cq }, poller := p }.complete ⟨.cancel op, res⟩) := by
  have htake := Kernel.outstanding_take hcq
  obtain ⟨life, hl⟩ := h.lives op
  have hcancels := htake (.cancel op)
  rw [if_pos rfl, hl.cancels] at hcancels
  have hother : ∀ u, u ≠ .cancel op →
      Kernel.outstanding { s.kernel with cq := cq } u = s.kernel.outstanding u := fun u hne => by
    have hu := htake u
    rwa [if_neg fun he => hne he.symm, Nat.add_zero] at hu
  have hframe : ∀ d, Frame s (s.taken { s.kernel with cq := cq } p d op (s.ops op).result) op := fun d =>
    frame_taken hp (fun other _ => hother _ (by rintro ⟨⟩))
      fun other hne => hother _ (by rintro ⟨⟩; exact hne rfl)
  have hwakeup : ∀ d, WakeupOk (s.taken { s.kernel with cq := cq } p d op (s.ops op).result) := fun d =>
    h.wakeup.congr Iff.rfl rfl (hother _ (by rintro ⟨⟩))
  have htargets := (hother (.target op) (by rintro ⟨⟩)).trans hl.targets
  have heq : ∃ d, { s with kernel := { s.kernel with cq := cq }, poller := p }.complete ⟨.cancel op, res⟩ =
      (s.taken { s.kernel with cq := cq } p d op (s.ops op).result).retireIfDrained op := by
    unfold State.complete
    dsimp only
    split
    · exact ⟨_, congrArg (State.retireIfDrained · op) (setOp_self _ op).symm⟩
    · exact ⟨_, congrArg (State.retireIfDrained · op) (setOp_self _ op).symm⟩
  obtain ⟨d, heq⟩ := heq
  rw [heq]
  cases life with
  | submitted target cancel =>
    cases cancel with
    | published =>
      have hzero : Kernel.outstanding { s.kernel with cq := cq } (.cancel op) = 0 := Nat.succ.inj hcancels
      cases target with
      | true => exact h.left hl (hframe d) hp (.inr ⟨rfl, rfl⟩) htargets hzero (hwakeup d)
      | false => exact h.last hl (hframe d) hp rfl htargets hzero (hwakeup d)
    | _ => cases hcancels
  | _ => cases hcancels

/-- The completion of the NOP clears both flags. -/
theorem Inv.completeWakeup (h : Inv s) (hcq : s.kernel.cq = ⟨.wakeup, res⟩ :: cq)
    (hp : p.batch = s.poller.batch) :
    Inv ({ s with kernel := { s.kernel with cq := cq }, poller := p }.complete ⟨.wakeup, res⟩) := by
  have htake := Kernel.outstanding_take hcq
  have hwakeup := htake .wakeup
  rw [if_pos rfl, h.wakeup.outstanding] at hwakeup
  have hother : ∀ u, u ≠ .wakeup →
      Kernel.outstanding { s.kernel with cq := cq } u = s.kernel.outstanding u := fun u hne => by
    have hu := htake u
    rwa [if_neg fun he => hne he.symm, Nat.add_zero] at hu
  refine h.of_same rfl rfl rfl ?_ rfl (fun _ => hother _ (by rintro ⟨⟩)) (fun _ => hother _ (by rintro ⟨⟩))
    ⟨?_, fun _ => ⟨rfl, rfl⟩⟩
  · change s.ready ++ p.batch = _
    rw [hp]
  · have hle : Kernel.outstanding { s.kernel with cq := cq } .wakeup + 1 ≤ 1 := by
      rw [hwakeup]
      split <;> decide
    change Kernel.outstanding { s.kernel with cq := cq } .wakeup = 0
    omega

theorem Inv.complete {completion : Cqe} (h : Inv s) (hcq : s.kernel.cq = completion :: cq)
    (hp : p.batch = s.poller.batch) :
    Inv ({ s with kernel := { s.kernel with cq := cq }, poller := p }.complete completion) := by
  obtain ⟨userData, res⟩ := completion
  cases userData with
  | wakeup => exact h.completeWakeup hcq hp
  | target op => exact h.completeTarget hcq hp
  | cancel op => exact h.completeCancel hcq hp

/-! ## The awaitables -/

theorem Inv.setFields (h : Inv s) (hl : Follows s op life) (hfields : OpOk o life) : Inv (s.setOp op o) :=
  h.setOp life hl hfields rfl Iff.rfl Iff.rfl rfl rfl rfl

theorem Follows.fresh (hl : Follows s op life) (hsuspended : (s.ops op).stage ≠ .suspended)
    (hresuming : (s.ops op).stage ≠ .resuming) (hfinished : (s.ops op).stage ≠ .finished) :
    life = .fresh := by
  have hfits := hl.fields.stage
  cases hst : (s.ops op).stage with
  | suspended => exact absurd hst hsuspended
  | resuming => exact absurd hst hresuming
  | finished => exact absurd hst hfinished
  | _ =>
    rw [hst] at hfits
    exact hfits

theorem Inv.fresh (h : Inv s) (hsuspended : (s.ops op).stage ≠ .suspended)
    (hresuming : (s.ops op).stage ≠ .resuming) (hfinished : (s.ops op).stage ≠ .finished) :
    Follows s op .fresh := by
  obtain ⟨life, hl⟩ := h.lives op
  obtain rfl := hl.fresh hsuspended hresuming hfinished
  exact hl

/-- The state after an operation was accepted. -/
def State.accept (s : State) (op : Address) : State :=
  State.setOp { s with
      operations := op :: s.operations
      submissions := s.submissions ++ [op]
      wakeFd := true } op
    { s.ops op with
      outcome := .submitted
      request := (s.ops op).awaitable.request
      phase := .suspended
      registered := true
      stage := .suspended }

theorem Inv.accept (h : Inv s) (hstage : (s.ops op).stage = .submitting)
    (htoken : (s.ops op).tokenStopped = false) : Inv (s.accept op) := by
  have hl : Follows s op .fresh := by
    refine h.fresh ?_ ?_ ?_ <;> rw [hstage] <;> rintro ⟨⟩
  have hfields := hl.fields
  have hnotoperation : op ∉ s.operations := mt hl.operations.mp (by rintro ⟨⟩)
  have hnotsubmission : op ∉ s.submissions := mt hl.submissions.mp (by rintro ⟨_, ⟨⟩⟩)
  refine h.of_frame op (.queued false) ?_ ?_ ?_ ?_ h.ready (h.parked.congr rfl fun other => ?_)
    (h.wakeup.congr Iff.rfl rfl rfl)
  · refine ⟨fun _ hne => ops_setOp_of_ne hne, fun other hne => ?_, fun other hne => ?_, fun _ _ => Iff.rfl,
      fun _ _ => rfl, fun _ _ => rfl⟩
    · change other ∈ op :: s.operations ↔ _
      rw [List.mem_cons, or_iff_right hne]
    · change other ∈ s.submissions ++ [op] ↔ _
      rw [List.mem_append, List.mem_singleton, or_iff_left hne]
  · constructor
    · rw [State.accept, ops_setOp_self]
      exact { hfields with
        registered := rfl
        phase := rfl
        stage := ⟨by rintro ⟨⟩, by rintro ⟨⟩⟩
        token := {
          stopPossible := hfields.token.stopPossible
          stopped := hfields.token.stopped
          installing := by rintro ⟨⟩
          installed := fun hp _ => hfields.token.installed hp (.inl hstage)
          requested := fun hspent _ => by
            have hstopped := hfields.token.stopped (.inr hspent)
            rw [htoken] at hstopped
            cases hstopped } }
    · exact iff_of_true List.mem_cons_self rfl
    · exact iff_of_true (List.mem_append_right _ (List.mem_singleton.mpr rfl)) ⟨_, rfl⟩
    · exact iff_of_false (mt hl.ready.mp (by rintro ⟨⟩)) (by rintro ⟨⟩)
    · exact hl.targets
    · exact hl.cancels
  · exact List.nodup_cons.mpr ⟨hnotoperation, h.operations⟩
  · change (s.submissions ++ [op]).Nodup
    rw [List.nodup_append]
    refine ⟨h.submissions, List.nodup_singleton op, fun a ha b hb => ?_⟩
    rw [List.mem_singleton.mp hb]
    rintro rfl
    exact hnotsubmission ha
  · by_cases he : other = op
    · subst he
      rw [State.accept, ops_setOp_self]
    · rw [State.accept, ops_setOp_of_ne he]

/-- What `submit_operation` refuses. -/
def State.refuses (s : State) (op : Address) : Prop :=
  s.closed = true ∨ s.stopped = true ∨ s.pollerDone = true ∨ (s.ops op).tokenStopped = true

theorem submitOperation_refuses (h : s.refuses op) : s.submitOperation op = (s, false) := by
  unfold State.submitOperation
  exact if_pos h

/-- The call of `submit_operation` by an awaitable. -/
theorem advance_submitting (hstage : (s.ops op).stage = .submitting) :
    (s.advance op = some (s.setOp op { s.ops op with outcome := .submitted, stage := .refused }) ∧
      s.refuses op) ∨
    (s.advance op = some (s.accept op) ∧ ¬s.refuses op) := by
  simp only [State.advance, hstage]
  by_cases hrefuses : s.refuses op
  · left
    rw [submitOperation_refuses (by simpa [State.refuses, State.setOp] using hrefuses)]
    refine ⟨?_, hrefuses⟩
    simp
  · right
    have hgoes : ¬(s.closed = true ∨ s.stopped = true ∨ s.pollerDone = true ∨
      (s.ops op).tokenStopped = true) := hrefuses
    refine ⟨?_, hrefuses⟩
    simp [State.submitOperation, State.accept, State.setOp, State.signalPoller, hgoes]

/-- An awaitable that is not suspended goes on. -/
theorem Inv.advance (h : Inv s) (hs : s.advance op = some s') : Inv s' := by
  cases hst : (s.ops op).stage with
  | idle => simp [State.advance, hst] at hs
  | check =>
    have hl : Follows s op .fresh := by
      refine h.fresh ?_ ?_ ?_ <;> rw [hst] <;> rintro ⟨⟩
    have htoken := hl.fields.token
    simp only [State.advance, hst] at hs
    split at hs
    · cases hs
      exact h.setFields hl { hl.fields with stage := .inl rfl, token := { htoken with
        installing := by rintro ⟨⟩, installed := by rintro _ (hs | hs) <;> cases hs } }
    · split at hs
      · cases hs
        exact h.setFields hl { hl.fields with stage := .inl rfl, token := { htoken with
          installing := by rintro ⟨⟩, installed := by rintro _ (hs | hs) <;> cases hs } }
      · cases hs
        exact h.setFields hl { hl.fields with stage := rfl, token := { htoken with
          installing := by rintro ⟨⟩, installed := by rintro _ (hs | hs) <;> cases hs } }
  | install =>
    have hl : Follows s op .fresh := by
      refine h.fresh ?_ ?_ ?_ <;> rw [hst] <;> rintro ⟨⟩
    have htoken := hl.fields.token
    simp only [State.advance, hst] at hs
    split at hs
    · split at hs
      · next hstopped =>
        cases hs
        exact h.setFields hl { hl.fields with stage := rfl, token := {
          stopPossible := htoken.stopPossible
          stopped := fun _ => hstopped
          installing := fun _ => .inl rfl
          installed := by rintro _ (hs | hs) <;> cases hs
          requested := by rintro ⟨⟩ } }
      · cases hs
        exact h.setFields hl { hl.fields with stage := rfl, token := {
          stopPossible := htoken.stopPossible
          stopped := by rintro (hc | hc) <;> cases hc
          installing := by rintro ⟨⟩
          installed := fun _ _ => by rintro ⟨⟩
          requested := by rintro ⟨⟩ } }
    · next hpossible =>
      cases hs
      exact h.setFields hl { hl.fields with stage := rfl, token := { htoken with
        installing := by rintro ⟨⟩, installed := fun hp _ => absurd hp hpossible } }
  | installing =>
    have hl : Follows s op .fresh := by
      refine h.fresh ?_ ?_ ?_ <;> rw [hst] <;> rintro ⟨⟩
    simp only [State.advance, hst] at hs
    split at hs
    · next hspent =>
      cases hs
      exact h.setFields hl { hl.fields with stage := rfl, token := { hl.fields.token with
        installing := by rintro ⟨⟩
        installed := fun _ _ => by
          rw [hspent]
          rintro ⟨⟩ } }
    · cases hs
  | submitting =>
    rcases advance_submitting hst with ⟨heq, -⟩ | ⟨heq, hgoes⟩
    · rw [heq] at hs
      cases hs
      have hl : Follows s op .fresh := by
        refine h.fresh ?_ ?_ ?_ <;> rw [hst] <;> rintro ⟨⟩
      exact h.setFields hl { hl.fields with stage := rfl, token := { hl.fields.token with
        installing := by rintro ⟨⟩, installed := by rintro _ (hs | hs) <;> cases hs } }
    · rw [heq] at hs
      cases hs
      refine h.accept hst (Bool.eq_false_iff.mpr fun htoken => hgoes ?_)
      exact .inr (.inr (.inr htoken))
  | refused =>
    have hl : Follows s op .fresh := by
      refine h.fresh ?_ ?_ ?_ <;> rw [hst] <;> rintro ⟨⟩
    simp only [State.advance, hst] at hs
    split at hs
    · cases hs
    · cases hs
      exact h.setFields hl { hl.fields with stage := .inl rfl, token := {
        stopPossible := hl.fields.token.stopPossible
        stopped := by rintro (hc | hc) <;> cases hc
        installing := by rintro ⟨⟩
        installed := by rintro _ (hs | hs) <;> cases hs
        requested := by rintro ⟨⟩ } }
  | suspended => simp [State.advance, hst] at hs
  | resuming =>
    obtain ⟨life, hl⟩ := h.lives op
    have hfits := hl.fields.stage
    rw [hst] at hfits
    simp only [State.advance, hst] at hs
    split at hs
    · cases hs
    · cases hs
      exact h.setFields hl { hl.fields with stage := hfits, token := {
        stopPossible := hl.fields.token.stopPossible
        stopped := by rintro (hc | hc) <;> cases hc
        installing := by rintro ⟨⟩
        installed := by rintro _ (hs | hs) <;> cases hs
        requested := by rintro ⟨⟩ } }
  | finished => simp [State.advance, hst] at hs

/-! ## The poller -/

/-- An operation of the batch is resumed. -/
theorem Inv.resume {batch : List Address} {retry : Bool} (h : Inv s)
    (hpoller : s.poller = .resuming (op :: batch) retry) :
    Inv (State.setOp { s with poller := .resuming batch retry } op
      { s.ops op with stage := .resuming, resumptions := (s.ops op).resumptions + 1 }) := by
  obtain ⟨life, hl⟩ := h.lives op
  have hbatch : s.poller.batch = op :: batch := by
    rw [hpoller]
    rfl
  obtain rfl : life = .ready := hl.ready.mp (by
    rw [hbatch]
    exact List.mem_append_right _ List.mem_cons_self)
  have hnodup := h.ready
  rw [hbatch, List.nodup_middle, List.nodup_cons] at hnodup
  refine h.of_frame op .resumed ?_ ?_ h.operations h.submissions hnodup.2
    (h.parked.congr rfl fun other => ?_) (h.wakeup.congr Iff.rfl rfl rfl)
  · refine ⟨fun _ hne => ops_setOp_of_ne hne, fun _ _ => Iff.rfl, fun _ _ => Iff.rfl, fun other hne => ?_,
      fun _ _ => rfl, fun _ _ => rfl⟩
    rw [hbatch, List.mem_append, List.mem_append, List.mem_cons, or_iff_right hne]
    exact Iff.rfl
  · constructor
    · rw [ops_setOp_self]
      exact { hl.fields with
        resumptions := congrArg (· + 1) hl.fields.resumptions
        stage := .inr rfl
        token := { hl.fields.token with
          installing := by rintro ⟨⟩, installed := by rintro _ (hs | hs) <;> cases hs } }
    · exact hl.operations
    · exact iff_of_false (mt hl.submissions.mp (by rintro ⟨_, ⟨⟩⟩)) (by rintro ⟨_, ⟨⟩⟩)
    · exact iff_of_false hnodup.1 (by rintro ⟨⟩)
    · exact hl.targets
    · exact hl.cancels
  · by_cases he : other = op
    · subst he
      rw [ops_setOp_self]
    · rw [ops_setOp_of_ne he]

/-- The poller goes on without a change of the lists. -/
theorem Inv.setPoller (h : Inv s) (hp : p.batch = s.poller.batch) : Inv { s with poller := p } := by
  refine h.of_same rfl rfl rfl ?_ rfl (fun _ => rfl) (fun _ => rfl) (h.wakeup.congr Iff.rfl rfl rfl)
  change s.ready ++ p.batch = _
  rw [hp]

theorem Inv.poll (h : Inv s) (hs : s.poll c = some s') : Inv s' := by
  cases hp : s.poller with
  | starting =>
    simp only [State.poll, hp] at hs
    cases hs
    exact h.setPoller (by rw [hp]; rfl)
  | submitting =>
    simp only [State.poll, hp] at hs
    cases hs
    have hpoller : ((s.processSubmissions c s.submissions).flush c.flush).poller = .submitting := by
      rw [(submits_flush ..).poller, (keeps_processSubmissions ..).poller, hp]
    refine ((h.processSubmissions rfl c).flush c.flush).setPoller ?_
    rw [hpoller]
    split <;> rfl
  | waiting =>
    simp only [State.poll, hp] at hs
    split at hs
    · cases hs
      refine h.of_same rfl rfl rfl ?_ rfl (fun _ => rfl) (fun _ => rfl) (h.wakeup.congr Iff.rfl rfl rfl)
      rw [hp]
      rfl
    · cases hs
      refine h.of_same rfl rfl rfl ?_ rfl (fun _ => rfl) (fun _ => rfl) (h.wakeup.congr Iff.rfl rfl rfl)
      rw [hp]
      rfl
  | scanning retry =>
    simp only [State.poll, hp] at hs
    cases hs
    exact h.setPoller (by rw [hp]; rfl)
  | draining left retry =>
    cases left with
    | zero =>
      simp only [State.poll, hp] at hs
      cases hs
      refine h.of_same rfl rfl rfl ?_ rfl (fun _ => rfl) (fun _ => rfl) (h.wakeup.congr Iff.rfl rfl rfl)
      rw [hp]
      exact (List.append_nil s.ready).symm
    | succ left =>
      simp only [State.poll, hp] at hs
      split at hs
      · cases hs
      · next completion cq hcq =>
        cases hs
        exact h.complete hcq (by rw [hp]; rfl)
  | resuming batch retry =>
    cases batch with
    | cons op batch =>
      simp only [State.poll, hp] at hs
      cases hs
      exact h.resume hp
    | nil =>
      simp only [State.poll, hp] at hs
      have hretry := h.retryParkedCancels c.flush
      have hkeeps := keeps_retryParkedCancels s c.flush
      generalize s.retryParkedCancels c.flush = t at hs hretry hkeeps
      have hwake : Inv (if t.wakeupNeeded then t.submitWakeup else t) := by
        split
        · exact hretry.submitWakeup
        · exact hretry
      have hpoller : (if t.wakeupNeeded then t.submitWakeup else t).poller = .resuming [] retry := by
        rw [← hp, ← hkeeps.poller]
        split
        · exact (keeps_submitWakeup t).poller
        · rfl
      generalize (if t.wakeupNeeded then t.submitWakeup else t) = u at hs hwake hpoller
      split at hs
      · cases hs
        refine hwake.of_same rfl rfl rfl ?_ rfl (fun _ => rfl) (fun _ => rfl)
          (hwake.wakeup.congr Iff.rfl rfl rfl)
        rw [hpoller]
        rfl
      · cases hs
        exact hwake.setPoller (by rw [hpoller]; rfl)
  | exited => simp [State.poll, hp] at hs

/-! ## The other threads -/

theorem Inv.closeContext (h : Inv s) : Inv s.close := by
  have hclosed : Inv { s with closed := true } :=
    h.of_same rfl rfl rfl rfl rfl (fun _ => rfl) (fun _ => rfl) (h.wakeup.congr Iff.rfl rfl rfl)
  exact hclosed.submitWakeup

theorem Inv.requestStop (h : Inv s) : Inv s.requestStop := by
  have hstopped : Inv { s with stopped := true } :=
    h.of_same rfl rfl rfl rfl rfl (fun _ => rfl) (fun _ => rfl) (h.wakeup.congr Iff.rfl rfl rfl)
  exact (hstopped.cancelAll fun _ hop => hop).submitWakeup

theorem Inv.shutdown (h : Inv s) : Inv s.shutdown := by
  have hstopped : Inv { s with closed := true, stopped := true } :=
    h.of_same rfl rfl rfl rfl rfl (fun _ => rfl) (fun _ => rfl) (h.wakeup.congr Iff.rfl rfl rfl)
  exact (hstopped.cancelAll fun _ hop => hop).submitWakeup

theorem opOk_new (awaitable : Awaitable) : OpOk { awaitable := awaitable } .fresh where
  valid := trivial
  registered := rfl
  pendingCqes := rfl
  submissionPending := rfl
  cancelParked := rfl
  cancelRequested := by
    rintro _ ⟨⟩
    rfl
  cancelPublished := by
    rintro _ ⟨⟩
    rfl
  phase := rfl
  retirements := rfl
  resumptions := rfl
  stage := rfl
  token := {
    stopPossible := by rintro ⟨⟩
    stopped := by rintro (hc | hc) <;> cases hc
    installing := by rintro ⟨⟩
    installed := by rintro _ (hs | hs) <;> cases hs
    requested := by rintro ⟨⟩ }

/-- An awaitable is created where none lives. -/
theorem Inv.create {awaitable : Awaitable} (h : Inv s)
    (hstage : (s.ops op).stage = .idle ∨ (s.ops op).stage = .finished) :
    Inv (s.setOp op { awaitable := awaitable }) := by
  obtain ⟨life, hl⟩ := h.lives op
  have hfits := hl.fields.stage
  have hlife : life = .fresh ∨ life = .resumed := by
    rcases hstage with hst | hst
    · rw [hst] at hfits
      exact .inl hfits
    · rw [hst] at hfits
      exact hfits
  rcases hlife with rfl | rfl
  · exact h.setFields hl (opOk_new awaitable)
  · refine h.setOp .fresh hl (opOk_new awaitable) rfl ?_ ?_ rfl rfl rfl
    · exact iff_of_false (by rintro ⟨_, ⟨⟩⟩) (by rintro ⟨_, ⟨⟩⟩)
    · exact iff_of_false (by rintro ⟨⟩) (by rintro ⟨⟩)

theorem requestCancel_requests (s : State) (op : Address)
    (h : ((s.requestCancel op).ops op).registered = true) :
    ((s.requestCancel op).ops op).cancelRequested = true := by
  have hregistered := (keeps_requestCancel s op).registered op h
  rw [State.requestCancel, hregistered, if_neg (by rintro ⟨⟩)]
  exact cancelOne_requests s op

/-- The stop callback of an operation. -/
theorem Inv.callback (h : Inv s) (hrunning : (s.ops op).callback = .running) :
    Inv ((s.requestCancel op).setOp op { (s.requestCancel op).ops op with callback := .spent }) := by
  have hinv := h.requestCancel op
  obtain ⟨life, hl⟩ := hinv.lives op
  have hcallback : ((s.requestCancel op).ops op).callback = .running := by
    have hcaller := (keeps_requestCancel s op).caller op
    rw [← hrunning]
    exact congrArg (fun caller => caller.2.1) hcaller
  exact hinv.setFields hl { hl.fields with token := {
    stopPossible := hl.fields.token.stopPossible
    stopped := fun _ => hl.fields.token.stopped (.inl hcallback)
    installing := fun _ => .inr rfl
    installed := fun _ _ => by rintro ⟨⟩
    requested := fun _ hregistered => requestCancel_requests s op hregistered } }

theorem Inv.step {a : Label} (h : Inv s) (hs : s.step a = some s') : Inv s' := by
  cases a with
  | create op awaitable =>
    simp only [State.step] at hs
    split at hs
    · next hstage =>
      cases hs
      exact h.create hstage
    · cases hs
  | await op =>
    simp only [State.step] at hs
    split at hs
    · next hstage =>
      cases hs
      have hl : Follows s op .fresh := by
        refine h.fresh ?_ ?_ ?_ <;> rw [hstage] <;> rintro ⟨⟩
      exact h.setFields hl { hl.fields with stage := rfl, token := { hl.fields.token with
        installing := by rintro ⟨⟩, installed := by rintro _ (hs | hs) <;> cases hs } }
    · cases hs
  | advance op => exact h.advance hs
  | stopToken op =>
    simp only [State.step] at hs
    split at hs
    · next hpossible =>
      cases hs
      obtain ⟨life, hl⟩ := h.lives op
      exact h.setFields hl { hl.fields with token := { hl.fields.token with
        stopPossible := fun _ => hpossible, stopped := fun _ => rfl } }
    · cases hs
  | runCallback op =>
    simp only [State.step] at hs
    split at hs
    · next hstopped =>
      cases hs
      obtain ⟨life, hl⟩ := h.lives op
      exact h.setFields hl { hl.fields with token := {
        stopPossible := hl.fields.token.stopPossible
        stopped := fun _ => hstopped.1
        installing := fun _ => .inl rfl
        installed := fun _ _ => by rintro ⟨⟩
        requested := by rintro ⟨⟩ } }
    · cases hs
  | requestCancel op =>
    simp only [State.step] at hs
    split at hs
    · next hrunning =>
      cases hs
      exact h.callback hrunning
    · cases hs
  | close =>
    cases hs
    exact h.closeContext
  | requestStop =>
    cases hs
    exact h.requestStop
  | shutdown =>
    cases hs
    exact h.shutdown
  | poll c => exact h.poll hs
  | post userData res =>
    obtain ⟨k, hk, rfl⟩ := Option.map_eq_some_iff.mp hs
    exact h.of_same rfl rfl rfl rfl rfl (fun _ => Kernel.outstanding_post hk _)
      (fun _ => Kernel.outstanding_post hk _) (h.wakeup.congr Iff.rfl rfl (Kernel.outstanding_post hk _))

theorem inv_initial (h : State.IsInitial s) : Inv s := by
  obtain ⟨entries, rfl⟩ := h
  refine ⟨fun op => ⟨.fresh, opOk_new {}, ?_, ?_, ?_, rfl, rfl⟩, List.nodup_nil, List.nodup_nil,
    List.nodup_nil, ⟨∅, fun op => by simp, rfl⟩, ⟨rfl, by rintro ⟨⟩⟩⟩
  · exact iff_of_false List.not_mem_nil (by rintro ⟨⟩)
  · exact iff_of_false List.not_mem_nil (by rintro ⟨_, ⟨⟩⟩)
  · exact iff_of_false List.not_mem_nil (by rintro ⟨⟩)

theorem reachable_inv (h : Reachable State.step State.IsInitial s) : Inv s :=
  h.preserves (fun _ => inv_initial) fun _ _ _ hinv hs => hinv.step hs

end CCForge.UringContext
