import CCForge.SpawnFuture.Steps

/-!
# What spawn_future guarantees
-/

namespace CCForge.SpawnFuture

variable {V E : Type} {s t : State V E}

/-! ## The association -/

/-- What no step but the release changes, and what no step takes back. -/
structure Keeps (s t : State V E) : Prop where
  released : t.released = s.released
  association : t.association = s.association
  abandoned : s.abandoned = true → t.abandoned = true

theorem keeps_tryCancel (s : State V E) (cancel : Cancel) : Keeps s (s.tryCancel cancel).1 := by
  cases cancel with
  | requesting => exact ⟨rfl, rfl, id⟩
  | sending => exact ⟨rfl, rfl, id⟩
  | _ =>
    unfold State.tryCancel
    dsimp only
    split_ifs <;> exact ⟨rfl, rfl, id⟩

theorem keeps_advanceChild (ht : s.advanceChild = some t) : Keeps s t := by
  unfold State.advanceChild at ht
  split at ht
  · split at ht <;> cases ht <;> exact ⟨rfl, rfl, id⟩
  · split at ht <;> cases ht <;> exact ⟨rfl, rfl, id⟩
  · cases ht
    exact ⟨rfl, rfl, id⟩
  · cases ht
    exact ⟨rfl, rfl, id⟩
  · cases ht

theorem keeps_advanceStop (ht : s.advanceStop = some t) : Keeps s t := by
  unfold State.advanceStop at ht
  split at ht
  · next cancel _ =>
    have hk := keeps_tryCancel s cancel
    dsimp only at ht
    split at ht <;> cases ht <;> exact ⟨hk.released, hk.association, hk.abandoned⟩
  · cases ht

theorem keeps_advanceStart {throws : Option E} (ht : s.advanceStart throws = some t) : Keeps s t := by
  unfold State.advanceStart at ht
  split at ht
  case h_4 cancel inCallback _ =>
    have hk := keeps_tryCancel s cancel
    dsimp only at ht
    split at ht <;> cases ht <;> exact ⟨hk.released, hk.association, hk.abandoned⟩
  case h_5 =>
    split at ht
    · cases ht
      exact ⟨rfl, rfl, id⟩
    · split_ifs at ht <;> cases ht <;> exact ⟨rfl, rfl, id⟩
  all_goals first
    | (split at ht <;> cases ht <;> exact ⟨rfl, rfl, id⟩)
    | (split_ifs at ht <;> cases ht <;> exact ⟨rfl, rfl, id⟩)
    | (cases ht <;> exact ⟨rfl, rfl, id⟩)

theorem keeps_advanceDestroy (ht : s.advanceDestroy = some t) : Keeps s t := by
  unfold State.advanceDestroy at ht
  dsimp only at ht
  generalize (if s.holder = .sender then Destroy.finished else Destroy.exchanging) = next at ht
  split at ht
  · cases ht
  · cases ht
  · split_ifs at ht <;> cases ht <;> exact ⟨rfl, rfl, id⟩
  · cases ht
    exact ⟨rfl, rfl, id⟩
  · split_ifs at ht <;> cases ht
    · exact ⟨rfl, rfl, fun _ => rfl⟩
    · exact ⟨rfl, rfl, id⟩
  · cases ht
    exact ⟨rfl, rfl, id⟩
  · cases ht
    exact ⟨rfl, rfl, id⟩
  · cases ht
    exact ⟨rfl, rfl, id⟩

theorem keeps_act {l : Label V E} (ht : s.act l = some t) : Keeps s t := by
  cases l with
  | advanceChild => exact keeps_advanceChild ht
  | advanceStart throws => exact keeps_advanceStart ht
  | advanceStop => exact keeps_advanceStop ht
  | advanceDestroy => exact keeps_advanceDestroy ht
  | spawn throws =>
    simp only [State.act, State.spawn] at ht
    split_ifs at ht
    · cases throws <;> cases ht <;> exact ⟨rfl, rfl, id⟩
    · cases ht
      exact ⟨rfl, rfl, id⟩
  | childCompletes completion throws =>
    simp only [State.act, State.childCompletes] at ht
    split_ifs at ht <;> cases ht <;> exact ⟨rfl, rfl, id⟩
  | destroy =>
    simp only [State.act] at ht
    split_ifs at ht <;> split at ht <;> cases ht <;> exact ⟨rfl, rfl, id⟩
  | _ =>
    simp only [State.act] at ht
    split_ifs at ht <;> cases ht <;> exact ⟨rfl, rfl, id⟩

theorem advanceStart_inProgress {throws : Option E} (ht : s.advanceStart throws = some t) :
    s.start.inProgress = true := by
  unfold State.advanceStart at ht
  cases hc : s.start with
  | idle =>
    rw [hc] at ht
    cases ht
  | finished =>
    rw [hc] at ht
    cases ht
  | _ => rfl

theorem advanceStop_inProgress (ht : s.advanceStop = some t) : s.stop.inProgress = true := by
  unfold State.advanceStop at ht
  split at ht
  · next hc =>
    rw [hc]
    rfl
  · cases ht

/-- A state that has lost its last owner does not get another one. -/
theorem act_lost {l : Label V E} (h : Inv s) (ho : s.owned = false) (ht : s.act l = some t) :
    t.owned = false := by
  have hover := h.lost ho
  have hchild : s.child = .finished := by
    revert hover
    cases s.child <;> simp [Child.isFinished]
  have hno := ho
  simp only [State.owned, Bool.or_eq_false_iff] at hno
  obtain ⟨⟨⟨⟨⟨⟨hholder, hstart⟩, -⟩, hstop⟩, hholds⟩, hkeep⟩, hcs⟩ := hno
  have hstarted : s.destroy = .idle → s.holder = .started := by
    intro hd
    simpa [hd] using hholder
  -- a lost state lacks an open call, a holder or a running callback, which most labels need
  cases l with
  | stopConsumer =>
    simp only [State.act] at ht
    split_ifs at ht
    cases ht
    exact ho
  | runCallback =>
    simp only [State.act, ho] at ht
    split at ht
    · cases ht
      simp [State.owned, hholder, hstart, hchild, Child.completing, Stop.inProgress, hholds, hkeep, hcs]
    · cases ht
  | spawn throws =>
    simp only [State.act, hchild] at ht
    cases ht
  | returnSender =>
    simp only [State.act] at ht
    split_ifs at ht with hc
    rw [hstarted (h.spawning hc.1)] at hc
    cases hc.1
  | childCompletes completion throws =>
    simp only [State.act, hchild] at ht
    cases ht
  | advanceChild =>
    simp only [State.act, State.advanceChild, hchild] at ht
    cases ht
  | stopChild =>
    simp only [State.act, hchild] at ht
    cases ht
  | connect throws =>
    simp only [State.act] at ht
    split at ht
    · next hc =>
      rw [hstarted hc.2] at hc
      cases hc.1
    · cases ht
  | start =>
    simp only [State.act] at ht
    split_ifs at ht with hc
    rw [hstarted hc.2] at hc
    cases hc.1
  | advanceStart throws =>
    rw [advanceStart_inProgress ht] at hstart
    cases hstart
  | advanceStop =>
    rw [advanceStop_inProgress ht] at hstop
    cases hstop
  | destroy =>
    simp only [State.act] at ht
    split at ht
    · next hd =>
      rw [hstarted hd] at ht
      dsimp only at ht
      split_ifs at ht
      cases ht
      simp [State.owned, hstart, hchild, Child.completing, hstop, Destroy.holds, hkeep, hcs]
    · cases ht
  | advanceDestroy =>
    have hheld : s.destroy.abandons ≠ true := by
      intro ha
      have hne := h.abandons ha
      revert ha
      cases hd : s.destroy <;> simp_all [Destroy.abandons]
    simp only [State.act, State.advanceDestroy] at ht
    cases hd : s.destroy with
    | idle =>
      rw [hd] at ht
      cases ht
    | finished =>
      rw [hd] at ht
      cases ht
    | unconsumed => exact absurd (by rw [hd]; rfl) hheld
    | requesting => exact absurd (by rw [hd]; rfl) hheld
    | exchanging =>
      have hh : s.holder = .started := by simpa [hd] using hholder
      rw [hd] at ht
      dsimp only at ht
      split_ifs at ht <;> cases ht <;>
        simp [State.owned, State.deactivate, hh, hstart, hchild, Child.completing, hstop,
          Destroy.holds, hkeep, hcs]
    | detaching holds =>
      have hh : s.holder = .started := by simpa [hd] using hholder
      rw [hd] at ht hholds
      cases holds with
      | true => cases hholds
      | false =>
        cases ht
        simp [State.owned, hh, hstart, hchild, Child.completing, hstop, Destroy.holds, hkeep, hcs]
    | requestingLast =>
      rw [hd] at hholds
      cases hholds

/-- The association is released with the last owner of the state, and only then. -/
def Balanced (s : State V E) : Prop :=
  s.released = if s.association = true ∧ s.owned = false then 1 else 0

theorem inv_settle (h : Inv t) : Inv (s.settle t) := by
  unfold State.settle
  split
  · exact { h with }
  · exact h

theorem balanced_settle (hs : Balanced s) (hr : t.released = s.released)
    (ha : t.association = s.association) (ho : s.owned = false → t.owned = false) :
    Balanced (s.settle t) := by
  have howned : (s.settle t).owned = t.owned := by
    unfold State.settle
    split_ifs <;> rfl
  have hassoc : (s.settle t).association = s.association := by
    unfold State.settle
    split_ifs <;> exact ha
  unfold Balanced at hs ⊢
  rw [howned, hassoc]
  unfold State.settle
  cases hsown : s.owned with
  | false =>
    rw [ho hsown]
    simpa [hsown, hr] using hs
  | true =>
    cases htown : t.owned <;> simp [hr, hs, hsown, ha]

theorem step_inv {l : Label V E} (h : Inv s ∧ Balanced s) (ht : step s l = some t) :
    Inv t ∧ Balanced t := by
  obtain ⟨u, hu, rfl⟩ := Option.map_eq_some_iff.mp ht
  have hk := keeps_act hu
  exact ⟨inv_settle (inv_act h.1 hu),
    balanced_settle h.2 hk.released hk.association fun ho => act_lost h.1 ho hu⟩

theorem reachable_inv (h : Reachable step Initial s) : Inv s ∧ Balanced s := by
  refine h.preserves ?_ fun _ _ _ hi hs => step_inv hi hs
  intro s hs
  refine ⟨inv_initial hs, ?_⟩
  obtain ⟨association, stopPossible, rfl⟩ := hs
  cases association <;> rfl

theorem step_abandoned {l : Label V E} (ha : s.abandoned = true) (ht : step s l = some t) :
    t.abandoned = true := by
  obtain ⟨u, hu, rfl⟩ := Option.map_eq_some_iff.mp ht
  have hk := (keeps_act hu).abandoned ha
  unfold State.settle
  split_ifs <;> exact hk

/-! ## Progress -/

/-- The steps of the calls that are in progress, and the stop callback that the requester runs. -/
def Label.due : Label V E → Bool
  | .advanceChild | .advanceStart _ | .runCallback | .advanceStop | .advanceDestroy => true
  | _ => false

def Cancel.work : Cancel → ℕ
  | .requesting => 4
  | .storing => 3
  | .notifying => 2
  | .sending => 1

def Child.work : Child V E → ℕ
  | .fresh | .running | .finished => 0
  | .storing _ => 4
  | .notifying => 3
  | .sending => 2
  | .releasing => 1

def Start.work {E : Type} : Start E → ℕ
  | .idle | .finished => 0
  | .entered => 14
  | .cancelling cancel false => 9 + cancel.work
  | .registering => 9
  | .cancelling cancel true => 3 + cancel.work
  | .failing _ => 4
  | .sendingError _ => 3
  | .unconsumed => 2
  | .requesting => 1
  | .consuming => 3
  | .delivering => 2
  | .sending => 1
  | .refused => 2
  | .sendingStopped => 1

def Callback.work : Callback → ℕ
  | .registered => 5
  | _ => 0

def Stop.work : Stop → ℕ
  | .running cancel => cancel.work
  | _ => 0

def Destroy.work : Destroy → ℕ
  | .idle | .finished => 0
  | .unconsumed => 5
  | .requesting => 4
  | .exchanging => 3
  | .detaching _ => 2
  | .requestingLast => 1

/-- How many steps the calls in progress still take. -/
def State.work (s : State V E) : ℕ :=
  s.child.work + s.start.work + s.callback.work + s.stop.work + s.destroy.work

/-- A step of `__try_cancel` moves no other call. -/
structure Cancels (s t : State V E) : Prop where
  child : t.child = s.child
  start : t.start = s.start
  stop : t.stop = s.stop
  destroy : t.destroy = s.destroy
  callback : t.callback.work ≤ s.callback.work

theorem tryCancel_work (s : State V E) (cancel : Cancel) : Cancels s (s.tryCancel cancel).1 ∧
    (s.tryCancel cancel).2.elim 0 Cancel.work < cancel.work := by
  have hsame : ∀ t : State V E, t.child = s.child → t.start = s.start → t.stop = s.stop →
      t.destroy = s.destroy → t.callback = s.callback → Cancels s t :=
    fun t h1 h2 h3 h4 h5 => ⟨h1, h2, h3, h4, Nat.le_of_eq (congrArg Callback.work h5)⟩
  cases cancel with
  | requesting => exact ⟨hsame _ rfl rfl rfl rfl rfl, by simp [State.tryCancel, Cancel.work]⟩
  | storing =>
    unfold State.tryCancel
    dsimp only
    split_ifs
    · exact ⟨hsame _ rfl rfl rfl rfl rfl, by simp [Cancel.work]⟩
    · exact ⟨hsame _ rfl rfl rfl rfl rfl, by simp [Cancel.work]⟩
    · exact ⟨hsame _ rfl rfl rfl rfl rfl, by simp [Cancel.work]⟩
  | notifying =>
    unfold State.tryCancel
    dsimp only
    split_ifs
    · exact ⟨hsame _ rfl rfl rfl rfl rfl, by simp [Cancel.work]⟩
    · exact ⟨hsame _ rfl rfl rfl rfl rfl, by simp [Cancel.work]⟩
  | sending => exact ⟨⟨rfl, rfl, rfl, rfl, Nat.zero_le _⟩, by simp [State.tryCancel, Cancel.work]⟩

theorem work_advanceChild (ht : s.advanceChild = some t) : t.work < s.work := by
  unfold State.advanceChild at ht
  unfold State.work
  split at ht
  · next hc =>
    split at ht
    · cases ht
      simp [hc, Child.work]
    · cases ht
      cases hcb : s.consumerCb <;> simp [hc, State.store, Child.work]
  · next hc =>
    split at ht <;> cases ht <;> simp [hc, State.deactivate, Child.work]
  · next hc =>
    cases ht
    simp [hc, State.deliverTo, State.complete, Child.work, Callback.work]
    omega
  · next hc =>
    cases ht
    simp [hc, Child.work]
  · cases ht

theorem work_advanceStop (ht : s.advanceStop = some t) : t.work < s.work := by
  unfold State.advanceStop at ht
  split at ht
  · next cancel hc =>
    obtain ⟨hk, hlt⟩ := tryCancel_work s cancel
    have hcall := hk.callback
    dsimp only at ht
    unfold State.work
    split at ht
    · next next hn =>
      rw [hn] at hlt
      cases ht
      simp only [hk.child, hk.start, hk.destroy, hc, Stop.work, Option.elim] at hlt ⊢
      omega
    · next hn =>
      rw [hn] at hlt
      cases ht
      simp only [hk.child, hk.start, hk.destroy, hc, Stop.work, Option.elim] at hlt ⊢
      omega
  · cases ht

theorem work_advanceStart {throws : Option E} (ht : s.advanceStart throws = some t) :
    t.work < s.work := by
  unfold State.advanceStart at ht
  unfold State.work
  split at ht
  case h_4 cancel inCallback hc =>
    obtain ⟨hk, hlt⟩ := tryCancel_work s cancel
    have hcall := hk.callback
    dsimp only at ht
    split at ht
    · next next hn =>
      rw [hn] at hlt
      cases ht
      simp only [hk.child, hk.stop, hk.destroy, hc, Option.elim] at hlt ⊢
      cases inCallback <;> simp only [Start.work] <;> omega
    · next hn =>
      rw [hn] at hlt
      cases ht
      simp only [hk.child, hk.stop, hk.destroy, hc, Option.elim] at hlt ⊢
      cases inCallback <;> simp [Start.work] <;> omega
  · cases ht
  · cases ht
  · next hc =>
    split at ht
    · cases ht
      simp [hc, Start.work]
    · cases ht
      split_ifs <;> simp [hc, Start.work, Cancel.work]
  · next hc =>
    split at ht
    · cases ht
      simp [hc, Start.work]
    · split_ifs at ht <;> cases ht <;> simp [hc, Start.work, Cancel.work, Callback.work] <;> omega
  · next hc => split_ifs at ht <;> cases ht <;> simp [hc, State.deactivate, Start.work]
  · next hc =>
    cases ht
    simp [hc, State.complete, Start.work, Callback.work]
    omega
  · next hc =>
    split_ifs at ht <;> cases ht <;> simp [hc, Start.work]
  · next hc =>
    cases ht
    simp [hc, State.requestStop, Start.work]
  · next hc =>
    split_ifs at ht <;> cases ht <;> simp [hc, Start.work]
  · next hc =>
    split_ifs at ht <;> cases ht <;> simp [hc, State.deactivate, Start.work]
  · next hc =>
    cases ht
    simp [hc, State.deliverTo, State.complete, Start.work, Callback.work]
    omega
  · next hc =>
    split_ifs at ht <;> cases ht <;> simp [hc, State.deactivate, Start.work]
  · next hc =>
    cases ht
    simp [hc, State.complete, Start.work, Callback.work]
    omega

theorem work_advanceDestroy (ht : s.advanceDestroy = some t) : t.work < s.work := by
  unfold State.advanceDestroy at ht
  unfold State.work
  dsimp only at ht
  have hnext : (if s.holder = .sender then Destroy.finished else Destroy.exchanging).work ≤ 3 := by
    split_ifs <;> decide
  generalize (if s.holder = .sender then Destroy.finished else Destroy.exchanging) = next at ht hnext
  split at ht
  · cases ht
  · cases ht
  · next hc =>
    split_ifs at ht <;> cases ht <;> simp [hc, Destroy.work] at hnext ⊢ <;> omega
  · next hc =>
    cases ht
    simp [hc, State.requestStop, Destroy.work] at hnext ⊢
    omega
  · next hc => split_ifs at ht <;> cases ht <;> simp [hc, State.deactivate, Destroy.work]
  · next hc =>
    have hwork : s.destroy.work = 2 := by rw [hc]; rfl
    cases ht
    show s.child.work + s.start.work + 0 + s.stop.work + 1 < _
    omega
  · next hc =>
    have hwork : s.destroy.work = 2 := by rw [hc]; rfl
    cases ht
    show s.child.work + s.start.work + 0 + s.stop.work + 0 < _
    omega
  · next hc =>
    cases ht
    simp [hc, State.requestStop, Destroy.work]

theorem work_runCallback (ht : s.act .runCallback = some t) : t.work < s.work := by
  simp only [State.act] at ht
  split at ht
  · next hc =>
    cases ht
    unfold State.work
    cases ho : s.owned <;> simp [hc.2, Callback.work, Stop.work, Cancel.work] <;> omega
  · cases ht

theorem work_step {l : Label V E} (hl : l.due = true) (ht : step s l = some t) : t.work < s.work := by
  obtain ⟨u, hu, rfl⟩ := Option.map_eq_some_iff.mp ht
  have hw : (s.settle u).work = u.work := by
    unfold State.settle
    split_ifs <;> rfl
  rw [hw]
  cases l with
  | advanceChild => exact work_advanceChild hu
  | advanceStart throws => exact work_advanceStart hu
  | runCallback => exact work_runCallback hu
  | advanceStop => exact work_advanceStop hu
  | advanceDestroy => exact work_advanceDestroy hu
  | _ => cases hl

/-- A call in progress has a next step. -/
theorem step_isSome (s : State V E) (l : Label V E) : (step s l).isSome = (s.act l).isSome := by
  simp [step]

theorem advanceChild_isSome (hc : s.child.completing = true) : s.advanceChild.isSome = true := by
  unfold State.advanceChild
  cases h : s.child with
  | storing result =>
    dsimp only
    split_ifs <;> rfl
  | notifying =>
    dsimp only
    split_ifs <;> rfl
  | sending => rfl
  | releasing => rfl
  | _ =>
    rw [h] at hc
    cases hc

theorem advanceStop_isSome (hc : s.stop.inProgress = true) : s.advanceStop.isSome = true := by
  unfold State.advanceStop
  cases h : s.stop with
  | running cancel =>
    dsimp only
    split <;> rfl
  | _ =>
    rw [h] at hc
    cases hc

theorem advanceStart_isSome (hc : s.start.inProgress = true) (throws : Option E) :
    (s.advanceStart throws).isSome = true := by
  unfold State.advanceStart
  cases h : s.start with
  | idle =>
    rw [h] at hc
    cases hc
  | finished =>
    rw [h] at hc
    cases hc
  | entered => cases throws <;> rfl
  | cancelling cancel inCallback =>
    dsimp only
    split <;> rfl
  | registering =>
    cases throws with
    | none =>
      dsimp only
      split_ifs <;> rfl
    | some error => rfl
  | sendingError error => rfl
  | requesting => rfl
  | sending => rfl
  | sendingStopped => rfl
  | _ =>
    dsimp only
    split_ifs <;> rfl

theorem advanceDestroy_isSome (h₁ : s.destroy ≠ .idle) (h₂ : s.destroy ≠ .finished) :
    s.advanceDestroy.isSome = true := by
  unfold State.advanceDestroy
  cases h : s.destroy with
  | idle => exact absurd h h₁
  | finished => exact absurd h h₂
  | unconsumed =>
    dsimp only
    split_ifs <;> rfl
  | exchanging =>
    dsimp only
    split_ifs <;> rfl
  | requesting => rfl
  | detaching holds => cases holds <;> rfl
  | requestingLast => rfl

/-! ## The guarantees -/

namespace State

/-- Some call took the consumer, or stands before its completion. -/
def delivering (s : State V E) : Bool := s.child.took || s.stop.took

/-- The stop request of the consumer was handled: no callback waits for it or runs. -/
def stopHandled (s : State V E) : Prop :=
  s.tokenStop = true ∧ s.callback ≠ .registered ∧ s.stop.inProgress = false

/-- Every call has returned, and the sender or the operation is destroyed. -/
def quiet (s : State V E) : Prop :=
  s.start.inProgress = false ∧ s.stop.inProgress = false ∧ s.child.isFinished = true ∧
    s.destroy = .finished

end State

structure HandsOff (s : State V E) : Prop where
  /-- A started consumer that is not destroyed has one completion, once the child has completed or
  the stop request was handled, and the calls that deliver to it have returned. -/
  received : s.start.isFinished = true → s.abandoned = false →
    s.child.isFinished = true ∨ s.stopHandled → s.delivering = false → s.completed.length = 1
  once : s.completed.length ≤ 1
  /-- The completion is the error of the installation, or what was stored. -/
  installThrew : ∀ completion ∈ s.completed, ∀ error, s.threw = some error →
    completion = .error error
  fromResult : ∀ completion ∈ s.completed, s.threw = none →
    s.writes = [(.child, completion)] ∧ s.childResult = some completion ∨
    s.writes = [(.cancel, .stopped)] ∧ completion = .stopped ∧ s.tokenStop = true
  /-- A consumer that is not started has none, and one that is destroyed gets none any more. -/
  notStarted : s.holder ≠ .started → s.completed = []
  silent : s.abandoned = true → ∀ ls t, run step s ls = some t → t.completed = []
  /-- A destructor that has passed the exchange found the consumer completed or abandons it. -/
  destroyed : s.destroy.exchanged = true → s.holder ≠ .sender →
    s.abandoned = true ∨ s.sending + s.completed.length = 1
  /-- The result is written once, by the child's completion at the latest. -/
  writtenOnce : s.writes.length ≤ 1
  written : s.child.isFinished = true → s.writes.length = 1
  /-- The association is released once, when the child has completed and the state has no owner. -/
  releasedOnce : s.released ≤ 1
  notBefore : s.released ≠ 0 → s.association = true ∧ s.child.isFinished = true
  released : s.quiet → s.released = if s.association then 1 else 0
  /-- Each call in progress goes on, and the calls end. -/
  childGoesOn : s.child.completing = true → (step s .advanceChild).isSome = true
  startGoesOn : s.start.inProgress = true → ∀ throws, (step s (.advanceStart throws)).isSome = true
  stopGoesOn : s.stop.inProgress = true → (step s .advanceStop).isSome = true
  callbackRuns : s.tokenStop = true → s.callback = .registered → (step s .runCallback).isSome = true
  destroyGoesOn : s.destroy ≠ .idle → s.destroy ≠ .finished → (step s .advanceDestroy).isSome = true
  ends : ∀ ls t, (∀ l ∈ ls, Label.due l = true) → run step s ls = some t → ls.length ≤ s.work

theorem Child.untouched {child : Child V E} (h : child.took = false) :
    child.notifies = false ∧ child.sends = 0 := by
  cases child <;> simp_all [Child.took, Child.notifies, Child.sends]

theorem Stop.untouched {stop : Stop} (h : stop.took = false) :
    stop.notifies = false ∧ stop.sends = 0 := by
  cases stop with
  | running cancel => cases cancel <;> simp_all [Stop.took, Stop.notifies, Stop.sends, Cancel.took,
      Cancel.notifies, Cancel.sends]
  | _ => exact ⟨rfl, rfl⟩

theorem Start.returned {start : Start E} (h : start.isFinished = true) :
    start.inProgress = false ∧ start.sends = 0 ∧ start.installed = true := by
  cases start <;> simp_all [Start.isFinished, Start.inProgress, Start.sends, Start.installed]

theorem Child.stored_of_finished {child : Child V E} (h : child.isFinished = true) : child.stored = true := by
  cases child <;> simp_all [Child.isFinished, Child.stored]

/-- Nobody is on the way to a consumer that is still active. -/
theorem inactive_of_handled (h : Inv s) (hs : s.start.isFinished = true)
    (hdone : s.child.isFinished = true ∨ s.stopHandled) (hd : s.delivering = false) :
    s.active = false := by
  simp only [State.delivering, Bool.or_eq_false_iff] at hd
  obtain ⟨hin, -, hinstalled⟩ := Start.returned hs
  by_contra hact
  have hact : s.active = true := by simpa using hact
  have hcb : s.consumerCb = true := by
    have hp := h.pending hact (h.started_of_finished hs)
    simpa [State.pending, hin, (Child.untouched hd.1).1, (Stop.untouched hd.2).1] using hp
  have hundone := h.registered hcb
  have hthrew : s.threw = none := (h.handedOver (by simp [State.handedOver, hcb])).2
  rcases hdone with hover | ⟨htoken, hcall, hstop⟩
  · rw [h.childStored (Child.stored_of_finished hover)] at hundone
    cases hundone
  · rcases h.handled (h.possible htoken) hinstalled hthrew with hc | hc | hc | hc
    · exact hcall hc
    · rw [hstop] at hc
      cases hc
    · rw [hundone] at hc
      cases hc
    · rw [hact] at hc
      cases hc

theorem length_received (h : Inv s) (hs : s.start.isFinished = true) (hab : s.abandoned = false)
    (hdone : s.child.isFinished = true ∨ s.stopHandled) (hd : s.delivering = false) :
    s.completed.length = 1 := by
  have ha := inactive_of_handled h hs hdone hd
  simp only [State.delivering, Bool.or_eq_false_iff] at hd
  have hw := h.winner
  simp only [State.sending, hab, ha, (Child.untouched hd.1).2, (Stop.untouched hd.2).2,
    (Start.returned hs).2.1] at hw
  simpa using hw

theorem length_le_one (h : Inv s) : s.completed.length ≤ 1 := by
  have hw := h.winner
  split_ifs at hw <;> omega

theorem from_result (h : Inv s) {completion : Completion V E} (hm : completion ∈ s.completed)
    (ht : s.threw = none) :
    s.writes = [(.child, completion)] ∧ s.childResult = some completion ∨
      s.writes = [(.cancel, .stopped)] ∧ completion = .stopped ∧ s.tokenStop = true := by
  rcases h.contents completion hm with ⟨error, hthrew, -⟩ | ⟨-, hr⟩
  · rw [ht] at hthrew
    cases hthrew
  · cases hd : s.done with
    | false =>
      rw [(h.unstored hd).2] at hr
      cases hr
    | true =>
      obtain ⟨writer, result, hw, hres, hchild, hcancel⟩ := h.stored hd
      rw [hr] at hres
      cases hres
      cases writer with
      | child => exact .inl ⟨hw, hchild rfl⟩
      | cancel =>
        obtain ⟨rfl, htoken⟩ := hcancel rfl
        exact .inr ⟨hw, rfl, htoken⟩

theorem writes_length (h : Inv s) : s.writes.length = if s.done then 1 else 0 := by
  cases hd : s.done with
  | false => simp [(h.unstored hd).1]
  | true =>
    obtain ⟨writer, result, hw, -⟩ := h.stored hd
    simp [hw]

/-- When every call has returned, the state has no owner. -/
theorem not_owned (h : Inv s) (hq : s.quiet) : s.owned = false := by
  obtain ⟨hstart, hstop, hchild, hd⟩ := hq
  have hc : s.child = .finished := by
    revert hchild
    cases s.child <;> simp [Child.isFinished]
  have hk := h.keepalive
  have hcs : s.consumerState = false := by
    cases hcs : s.consumerState with
    | false => rfl
    | true =>
      obtain ⟨ha, hh⟩ := h.consumerState hcs
      rw [h.exchanged (by rw [hd]; rfl) (by simp [hh])] at ha
      cases ha
  simp [State.owned, hstart, hstop, hc, hd, hk, hcs, Child.completing, Child.keeps, Destroy.holds]

/-- The consumer of a spawned future gets its one completion, and the association of the child is
released once. -/
theorem spawn_future_hands_off (h : Reachable step Initial s) : HandsOff s := by
  obtain ⟨hi, hb⟩ := reachable_inv h
  have hle := length_le_one hi
  have hwrites := writes_length hi
  constructor
  · exact length_received hi
  · exact hle
  · intro completion hm error ht
    rcases hi.contents completion hm with ⟨e, hthrew, rfl⟩ | ⟨hthrew, -⟩
    · rw [ht] at hthrew
      cases hthrew
      rfl
    · rw [ht] at hthrew
      cases hthrew
  · exact fun completion hm ht => from_result hi hm ht
  · intro hh
    by_contra hc
    exact hh (hi.receives hc)
  · intro ha ls t hrun
    have hab : t.abandoned = true :=
      run_preserves (fun _ _ _ hp hs => step_abandoned hp hs) ha hrun
    have hw := (run_preserves (fun _ _ _ hp hs => step_inv hp hs) ⟨hi, hb⟩ hrun).1.winner
    rw [hab] at hw
    apply List.length_eq_zero_iff.mp
    split_ifs at hw
    · simp at hw
    · simp at hw
      omega
  · intro hx hh
    have ha := hi.exchanged hx hh
    have hw := hi.winner
    rw [ha] at hw
    cases hab : s.abandoned with
    | true => exact .inl rfl
    | false =>
      right
      simpa [hab] using hw
  · split_ifs at hwrites <;> omega
  · intro hover
    rw [hwrites, if_pos (hi.childStored (Child.stored_of_finished hover))]
  · rw [hb]
    split_ifs <;> omega
  · intro hr
    rw [hb] at hr
    by_cases hc : s.association = true ∧ s.owned = false
    · exact ⟨hc.1, hi.lost hc.2⟩
    · rw [if_neg hc] at hr
      exact absurd rfl hr
  · intro hq
    rw [hb, not_owned hi hq]
    simp
  · intro hc
    rw [step_isSome]
    exact advanceChild_isSome hc
  · intro hc throws
    rw [step_isSome]
    exact advanceStart_isSome hc throws
  · intro hc
    rw [step_isSome]
    exact advanceStop_isSome hc
  · intro ht hc
    rw [step_isSome]
    simp [State.act, ht, hc]
  · intro h₁ h₂
    rw [step_isSome]
    exact advanceDestroy_isSome h₁ h₂
  · intro ls t hls hrun
    have hlowers : ∀ (u : State V E) l v, True → Label.due l = true → step u l = some v →
        True ∧ v.work < u.work := fun u l v _ hl hs => ⟨trivial, work_step hl hs⟩
    have hlen := run_length_le hlowers trivial hls hrun
    omega

/-- A consumer is registered when its token is stopped, while the child completes with an error. -/
theorem spawn_future_hands_off_cancelled : ∃ s : State ℕ ℕ, Reachable step Initial s ∧
    s.completed = [.stopped] ∧ s.writes = [(.cancel, .stopped)] ∧ s.released = 1 ∧ HandsOff s := by
  obtain ⟨s, hs, h1, h2, h3⟩ : ∃ s : State ℕ ℕ,
      run step { association := true, stopPossible := true } [.spawn none, .returnSender,
        .connect false, .start, .advanceStart none, .advanceStart none, .advanceStart none,
        .stopConsumer, .runCallback, .advanceStop, .advanceStop, .childCompletes (.error 7) none,
        .advanceChild, .advanceStop, .advanceChild, .advanceStop, .destroy, .advanceDestroy] =
          some s ∧
      s.completed = [.stopped] ∧ s.writes = [(.cancel, .stopped)] ∧ s.released = 1 :=
    ⟨_, rfl, rfl, rfl, rfl⟩
  have hr : Reachable step Initial s := ⟨_, ⟨true, true, rfl⟩, _, hs⟩
  exact ⟨s, hr, h1, h2, h3, spawn_future_hands_off hr⟩

/-- The installation of the stop callback throws after the child has completed with a value, and
in another run after the stop request was handled. In both the consumer gets what it threw. -/
theorem spawn_future_error_overtakes :
    (∃ s : State ℕ ℕ, Reachable step Initial s ∧ s.writes = [(.child, .value [5])] ∧
      s.start.inProgress = false ∧ s.holder = .op ∧ ∃ ls t, run step s ls = some t ∧
        s.childResult = some (.value [5]) ∧ t.completed = [.error 9]) ∧
    ∃ s : State ℕ ℕ, Reachable step Initial s ∧ s.writes = [(.cancel, .stopped)] ∧
      s.threw = none ∧ ∃ ls t, run step s ls = some t ∧ t.completed = [.error 9] := by
  refine ⟨?_, ?_⟩
  · obtain ⟨s, hs, h1, h2, h3, h4⟩ : ∃ s : State ℕ ℕ,
        run step { association := true, stopPossible := true } [.spawn none, .returnSender,
          .connect false, .childCompletes (.value [5]) none, .advanceChild, .advanceChild] =
            some s ∧ s.writes = [(.child, .value [5])] ∧ s.start.inProgress = false ∧
          s.holder = .op ∧ ∃ ls t, run step s ls = some t ∧
            s.childResult = some (.value [5]) ∧ t.completed = [.error 9] :=
      ⟨_, rfl, rfl, rfl, rfl, [.start, .advanceStart none, .advanceStart (some 9),
        .advanceStart none, .advanceStart none], _, rfl, rfl, rfl⟩
    exact ⟨s, ⟨_, ⟨true, true, rfl⟩, _, hs⟩, h1, h2, h3, h4⟩
  · obtain ⟨s, hs, h1, h2, h3⟩ : ∃ s : State ℕ ℕ,
        run step { association := true, stopPossible := true } [.stopConsumer, .spawn none,
          .returnSender, .connect false, .start, .advanceStart none, .advanceStart none,
          .advanceStart none] = some s ∧ s.writes = [(.cancel, .stopped)] ∧ s.threw = none ∧
          ∃ ls t, run step s ls = some t ∧ t.completed = [.error 9] :=
      ⟨_, rfl, rfl, rfl, [.advanceStart (some 9), .advanceStart none, .advanceStart none], _, rfl, rfl⟩
    exact ⟨s, ⟨_, ⟨true, true, rfl⟩, _, hs⟩, h1, h2, h3⟩

end CCForge.SpawnFuture
