import CCForge.SpawnFuture.Invariants

/-!
# The steps of spawn_future keep the invariant

Each call is one section below, in the order of its own steps. A call that takes the
result or the consumer has its stage changed in the same step, so the lemmas say which
stages a call may move between.
-/

namespace CCForge.SpawnFuture

variable {V E : Type} {s t : State V E}

/-! ## The child -/

theorem Child.before_storing {child : Child V E} (h : child.stored = false) :
    child.sends = 0 ∧ child.took = false ∧ child.notifies = false := by
  cases child <;> simp_all [Child.stored, Child.sends, Child.took, Child.notifies]

/-- The child moves on, and has not stored its result yet. -/
theorem Inv.childMoves {child : Child V E} {keepalive refused : Bool}
    {childResult : Option (Completion V E)} (h : Inv s) (hold : s.child.stored = false)
    (hnew : child.stored = false) (hfresh : child.isFresh = false)
    (ha : child.isRunning = true → s.association = true)
    (hk : keepalive = (s.association && child.keeps))
    (hr : ∀ result, child = .storing result → childResult = some result) :
    Inv { s with
      child := child
      keepalive := keepalive
      refused := refused
      childResult := childResult } := by
  obtain ⟨hsends, htook, hnot⟩ := Child.before_storing hold
  obtain ⟨hsends', htook', hnot'⟩ := Child.before_storing hnew
  have hw := h.winner
  have hp := h.pending
  have ho := h.handedOver
  simp only [State.sending, State.pending, State.handedOver, hsends, htook, hnot] at hw hp ho
  exact { h with
    fresh := by simp [hfresh]
    associated := ha
    keepalive := hk
    stored := by
      intro hd
      obtain ⟨h1, h2, h3⟩ := h.by_cancel hold hd
      exact ⟨.cancel, .stopped, h1, h2, by rintro ⟨⟩, fun _ => ⟨rfl, h3⟩⟩
    childWrote := by
      intro result hm
      have hs := h.childWrote result hm
      rw [hold] at hs
      cases hs
    childStored := by simp [hnew]
    childStoring := hr
    winner := by simpa only [State.sending, hsends'] using hw
    pending := by simpa only [State.pending, hnot'] using hp
    handedOver := by simpa only [State.handedOver, htook'] using ho }

theorem inv_spawn (h : Inv s) (hc : s.child.isFresh = true) (throws : Option E) :
    Inv (s.spawn throws) := by
  have hstored : s.child.stored = false := by
    revert hc
    cases s.child <;> simp [Child.isFresh, Child.stored]
  have hresult : ∀ r result : Completion V E, Child.storing r = .storing result →
      some r = some result := by
    intro r result hr
    cases hr
    rfl
  unfold State.spawn
  split_ifs with ha
  · cases throws with
    | none => exact h.childMoves hstored rfl rfl (fun _ => ha) (by simp [ha, Child.keeps]) (by rintro _ ⟨⟩)
    | some error =>
      exact h.childMoves hstored rfl rfl (by rintro ⟨⟩) (by simp [ha, Child.keeps]) (hresult _)
  · refine h.childMoves hstored rfl rfl (by rintro ⟨⟩) ?_ (hresult _)
    rw [h.keepalive]
    simp [ha]

theorem inv_childCompletes (h : Inv s) (hc : s.child.isRunning = true) (completion : Completion V E)
    (throws : Option E) : Inv (s.childCompletes completion throws) := by
  have hk := h.keepalive
  have hchild : s.child = .running := by
    revert hc
    cases s.child <;> simp [Child.isRunning]
  have howned : s.owned = true := by
    simp [State.owned, hk, h.associated hc, hchild, Child.keeps]
  unfold State.childCompletes
  rw [if_pos howned]
  refine h.childMoves (by rw [hchild]; rfl) rfl rfl (by rintro ⟨⟩) ?_ ?_
  · rw [hk, hchild]
    rfl
  · intro result hr
    cases hr
    rfl

theorem Start.late {start : Start E} (h : start.isFinished = true) :
    start.early = false ∧ start.unmade = false ∧ start.isIdle = false ∧ start.inProgress = false := by
  cases start <;> simp_all [Start.isFinished, Start.early, Start.unmade, Start.isIdle, Start.inProgress]

theorem Start.early_of_unmade {start : Start E} (h : start.unmade = true) : start.early = true := by
  cases start <;> simp_all [Start.early, Start.unmade]

theorem Inv.started_of_finished (h : Inv s) (hover : s.start.isFinished = true) : s.holder = .started := by
  by_contra hne
  have hi := h.idle.mpr hne
  rw [(Start.late hover).2.2.1] at hi
  cases hi

/-- A call that won the exchange. -/
theorem Inv.inactive (h : Inv s) (hs : 0 < s.sending) : s.active = false := by
  cases ha : s.active with
  | false => rfl
  | true =>
    have hw := h.winner
    rw [if_pos ha] at hw
    omega

namespace Inv

/-- The child stores its result, if no cancel has stored one before. -/
theorem childStores (h : Inv s) {result : Completion V E} (hc : s.child = .storing result)
    (ht : s.advanceChild = some t) : Inv t := by
  have hw := h.winner
  have hp := h.pending
  have ho := h.handedOver
  have hk := h.keepalive
  unfold State.advanceChild at ht
  rw [hc] at ht
  dsimp only at ht
  simp only [State.sending, State.pending, State.handedOver, hc] at hw hp ho hk
  split at ht
  · next hd =>
    cases ht
    exact { h with
      fresh := by rintro ⟨⟩
      associated := by rintro ⟨⟩
      keepalive := hk
      childWrote := fun _ _ => rfl
      childStored := fun _ => hd
      childStoring := by rintro _ ⟨⟩
      winner := hw
      pending := hp
      handedOver := ho }
  · next hd =>
    cases ht
    have hd : s.done = false := by simpa using hd
    have hwrites := (h.unstored hd).1
    cases hcb : s.consumerCb with
    | true =>
      exact { h with
        fresh := by rintro ⟨⟩
        associated := by rintro ⟨⟩
        keepalive := hk
        stored := fun _ => ⟨.child, result, by simp [State.store, hwrites], rfl,
          fun _ => h.childStoring result hc, by rintro ⟨⟩⟩
        unstored := by rintro ⟨⟩
        childWrote := fun _ _ => rfl
        childStored := fun _ => rfl
        childStoring := by rintro _ ⟨⟩
        winner := hw
        pending := fun _ _ => by simp [State.pending, Child.notifies]
        handedOver := fun _ => ho (by rw [hcb]; rfl)
        registered := by rintro ⟨⟩
        contents := h.contents_store hd result
        delivers := fun _ => rfl
        cancelled := fun _ => rfl
        handled := fun _ _ _ => .inr (.inr (.inl rfl)) }
    | false =>
      rw [hcb] at hp ho
      exact { h with
        fresh := by rintro ⟨⟩
        associated := by rintro ⟨⟩
        keepalive := hk
        stored := fun _ => ⟨.child, result, by simp [State.store, hwrites], rfl,
          fun _ => h.childStoring result hc, by rintro ⟨⟩⟩
        unstored := by rintro ⟨⟩
        childWrote := fun _ _ => rfl
        childStored := fun _ => rfl
        childStoring := by rintro _ ⟨⟩
        winner := hw
        pending := hp
        handedOver := ho
        registered := by rintro ⟨⟩
        contents := h.contents_store hd result
        delivers := fun _ => rfl
        cancelled := fun _ => rfl
        handled := fun _ _ _ => .inr (.inr (.inl rfl)) }

/-- The child exchanges the flag of the consumer. -/
theorem childNotifies (h : Inv s) (hc : s.child = .notifying) (ht : s.advanceChild = some t) :
    Inv t := by
  have hw := h.winner
  have hp := h.pending
  have ho := h.handedOver
  have hk := h.keepalive
  unfold State.advanceChild at ht
  rw [hc] at ht
  dsimp only at ht
  simp only [State.sending, State.pending, State.handedOver, hc] at hw hp ho hk
  have hd : s.done = true := h.childStored (by rw [hc]; rfl)
  obtain ⟨hover, hthrew⟩ := ho (by simp [Child.took])
  split at ht
  · next ha =>
    cases ht
    rw [if_pos ha] at hw
    exact { h with
      fresh := by rintro ⟨⟩
      associated := by rintro ⟨⟩
      keepalive := hk
      childWrote := fun _ _ => rfl
      childStored := fun _ => hd
      childStoring := by rintro _ ⟨⟩
      winner := by
        simp only [State.sending, State.deactivate, Child.sends] at hw ⊢
        simp
        omega
      consumerState := by rintro ⟨⟩
      pending := by rintro ⟨⟩
      handedOver := fun _ => ⟨hover, hthrew⟩
      early := by simp [State.deactivate, (Start.late hover).1]
      settled := fun _ => rfl
      handled := fun _ _ _ => .inr (.inr (.inr rfl))
      started := fun _ _ => .inr rfl
      exchanged := fun _ _ => rfl
      unstarted := fun hne => absurd (h.started_of_finished hover) hne }
  · next ha =>
    cases ht
    exact { h with
      fresh := by rintro ⟨⟩
      associated := by rintro ⟨⟩
      keepalive := hk
      childWrote := fun _ _ => rfl
      childStored := fun _ => hd
      childStoring := by rintro _ ⟨⟩
      winner := hw
      pending := fun hact => absurd hact ha
      handedOver := fun _ => ⟨hover, hthrew⟩ }

/-- The child completes the consumer. -/
theorem childSends (h : Inv s) (hc : s.child = .sending) (ht : s.advanceChild = some t) :
    Inv t := by
  have hw := h.winner
  have hp := h.pending
  have ho := h.handedOver
  have hk := h.keepalive
  unfold State.advanceChild at ht
  rw [hc] at ht
  dsimp only at ht
  have hone : s.child.sends = 1 := by rw [hc]; rfl
  have ha : s.active = false := h.inactive (by unfold State.sending; omega)
  simp only [State.sending, State.pending, State.handedOver, hc] at hw hp ho hk
  have hd : s.done = true := h.childStored (by rw [hc]; rfl)
  obtain ⟨hover, hthrew⟩ := ho (by simp [Child.took])
  cases ht
  exact { h with
    fresh := by rintro ⟨⟩
    associated := by rintro ⟨⟩
    keepalive := hk
    childWrote := fun _ _ => rfl
    childStored := fun _ => hd
    childStoring := by rintro _ ⟨⟩
    winner := by
      simp [State.sending, State.deliverTo, State.complete, Child.sends, ha] at hw ⊢
      omega
    pending := fun hact => by
      rw [show s.active = true from hact] at ha
      cases ha
    handedOver := fun _ => ⟨hover, hthrew⟩
    contents := h.contents_deliver hd hthrew
    handled := fun _ _ _ => .inr (.inr (.inl hd))
    unstarted := fun hne => absurd (h.started_of_finished hover) hne
    unmade := by simp [State.deliverTo, State.complete, (Start.late hover).2.1]
    ran := fun _ => rfl
    receives := fun _ => h.started_of_finished hover }

theorem childReleases (h : Inv s) (hc : s.child = .releasing) (ht : s.advanceChild = some t) :
    Inv t := by
  have hw := h.winner
  have hp := h.pending
  have ho := h.handedOver
  have hk := h.keepalive
  unfold State.advanceChild at ht
  rw [hc] at ht
  dsimp only at ht
  simp only [State.sending, State.pending, State.handedOver, hc] at hw hp ho hk
  have hd : s.done = true := h.childStored (by rw [hc]; rfl)
  cases ht
  exact { h with
    fresh := by rintro ⟨⟩
    associated := by rintro ⟨⟩
    keepalive := by simp [Child.keeps]
    childWrote := fun _ _ => rfl
    childStored := fun _ => hd
    childStoring := by rintro _ ⟨⟩
    winner := hw
    pending := hp
    handedOver := ho }

end Inv

theorem inv_advanceChild (h : Inv s) (ht : s.advanceChild = some t) : Inv t := by
  cases hc : s.child with
  | storing result => exact h.childStores hc ht
  | notifying => exact h.childNotifies hc ht
  | sending => exact h.childSends hc ht
  | releasing => exact h.childReleases hc ht
  | fresh | running | finished =>
    simp only [State.advanceChild, hc] at ht
    cases ht

/-! ## The stop callback -/

namespace Inv

theorem stopRequests (h : Inv s) (hc : s.stop = .running .requesting) (ht : s.advanceStop = some t) :
    Inv t := by
  have hw := h.winner
  have hp := h.pending
  have ho := h.handedOver
  unfold State.advanceStop at ht
  rw [hc] at ht
  dsimp only [State.tryCancel] at ht
  have htoken := h.cancels (by rw [hc]; rfl)
  have hran := h.ran (by rw [hc]; rfl)
  simp only [State.sending, State.pending, State.handedOver, hc] at hw hp ho
  cases ht
  exact { h with
    winner := hw
    pending := hp
    handedOver := ho
    cancels := fun _ => htoken
    cancelled := by rintro ⟨⟩
    handled := fun _ _ _ => .inr (.inl rfl)
    ran := fun _ => hran }

/-- The callback stores the stop, if the child has not stored its result before. -/
theorem stopStores (h : Inv s) (hc : s.stop = .running .storing) (ht : s.advanceStop = some t) :
    Inv t := by
  have hw := h.winner
  have hp := h.pending
  have ho := h.handedOver
  unfold State.advanceStop at ht
  rw [hc] at ht
  dsimp only [State.tryCancel] at ht
  have htoken := h.cancels (by rw [hc]; rfl)
  have hran := h.ran (by rw [hc]; rfl)
  simp only [State.sending, State.pending, State.handedOver, hc] at hw hp ho
  by_cases hd : s.done = true
  · rw [if_pos hd] at ht
    cases ht
    exact { h with
      winner := hw
      pending := hp
      handedOver := ho
      cancels := by rintro ⟨⟩
      cancelled := by rintro ⟨⟩
      handled := fun _ _ _ => .inr (.inr (.inl hd))
      ran := fun _ => hran }
  · rw [if_neg hd] at ht
    have hd : s.done = false := by simpa using hd
    have hwrites := (h.unstored hd).1
    have hstored : ∀ result, (Writer.child, result) ∉ s.writes ++ [(.cancel, .stopped)] := by
      simp [hwrites]
    cases hcb : s.consumerCb with
    | true =>
      rw [hcb] at ht
      cases ht
      exact { h with
        stored := fun _ => ⟨.cancel, .stopped, by simp [State.store, hwrites], rfl, by rintro ⟨⟩,
          fun _ => ⟨rfl, htoken⟩⟩
        unstored := by rintro ⟨⟩
        childWrote := fun result hm => absurd hm (hstored result)
        childStored := fun _ => rfl
        winner := hw
        pending := fun _ _ => by simp [State.pending, Stop.notifies, Cancel.notifies]
        handedOver := fun _ => ho (by rw [hcb]; rfl)
        registered := by rintro ⟨⟩
        contents := h.contents_store hd .stopped
        delivers := fun _ => rfl
        cancels := fun _ => htoken
        cancelled := fun _ => rfl
        handled := fun _ _ _ => .inr (.inr (.inl rfl))
        ran := fun _ => hran }
    | false =>
      rw [hcb] at ht hp ho
      cases ht
      exact { h with
        stored := fun _ => ⟨.cancel, .stopped, by simp [State.store, hwrites], rfl, by rintro ⟨⟩,
          fun _ => ⟨rfl, htoken⟩⟩
        unstored := by rintro ⟨⟩
        childWrote := fun result hm => absurd hm (hstored result)
        childStored := fun _ => rfl
        winner := hw
        pending := hp
        handedOver := ho
        registered := by rintro ⟨⟩
        contents := h.contents_store hd .stopped
        delivers := fun _ => rfl
        cancels := by rintro ⟨⟩
        cancelled := by rintro ⟨⟩
        handled := fun _ _ _ => .inr (.inr (.inl rfl))
        ran := fun _ => hran }

/-- The callback exchanges the flag of the consumer. -/
theorem stopNotifies (h : Inv s) (hc : s.stop = .running .notifying) (ht : s.advanceStop = some t) :
    Inv t := by
  have hw := h.winner
  have hp := h.pending
  have ho := h.handedOver
  unfold State.advanceStop at ht
  rw [hc] at ht
  dsimp only [State.tryCancel] at ht
  have htoken := h.cancels (by rw [hc]; rfl)
  have hran := h.ran (by rw [hc]; rfl)
  simp only [State.sending, State.pending, State.handedOver, hc] at hw hp ho
  have hd : s.done = true := h.cancelled (by rw [hc]; rfl)
  obtain ⟨hover, hthrew⟩ := ho (by simp [Stop.took, Cancel.took])
  by_cases ha : s.active = true
  · rw [if_pos ha] at ht hw
    cases ht
    exact { h with
      winner := by
        simp only [State.sending, State.deactivate, Stop.sends, Cancel.sends] at hw ⊢
        simp
        omega
      consumerState := by rintro ⟨⟩
      pending := by rintro ⟨⟩
      handedOver := fun _ => ⟨hover, hthrew⟩
      early := by simp [State.deactivate, (Start.late hover).1]
      settled := fun _ => rfl
      cancels := fun _ => htoken
      cancelled := fun _ => hd
      handled := fun _ _ _ => .inr (.inr (.inr rfl))
      started := fun _ _ => .inr rfl
      exchanged := fun _ _ => rfl
      unstarted := fun hne => absurd (h.started_of_finished hover) hne
      ran := fun _ => hran }
  · rw [if_neg ha] at ht
    cases ht
    exact { h with
      winner := hw
      pending := fun hact => absurd hact ha
      handedOver := fun _ => ⟨hover, hthrew⟩
      cancels := by rintro ⟨⟩
      cancelled := by rintro ⟨⟩
      handled := fun _ _ _ => .inr (.inr (.inl hd))
      ran := fun _ => hran }

/-- The callback completes the consumer. -/
theorem stopSends (h : Inv s) (hc : s.stop = .running .sending) (ht : s.advanceStop = some t) :
    Inv t := by
  have hw := h.winner
  have hp := h.pending
  have ho := h.handedOver
  unfold State.advanceStop at ht
  rw [hc] at ht
  dsimp only [State.tryCancel] at ht
  have htoken := h.cancels (by rw [hc]; rfl)
  have hran := h.ran (by rw [hc]; rfl)
  simp only [State.sending, State.pending, State.handedOver, hc] at hw hp ho
  have hd : s.done = true := h.cancelled (by rw [hc]; rfl)
  have hone : s.stop.sends = 1 := by rw [hc]; rfl
  have ha : s.active = false := h.inactive (by unfold State.sending; omega)
  obtain ⟨hover, hthrew⟩ := ho (by simp [Stop.took, Cancel.took])
  cases ht
  exact { h with
    winner := by
      simp [State.sending, State.deliverTo, State.complete, Stop.sends, Cancel.sends, ha] at hw ⊢
      omega
    pending := fun hact => by
      rw [show s.active = true from hact] at ha
      cases ha
    handedOver := fun _ => ⟨hover, hthrew⟩
    contents := h.contents_deliver hd hthrew
    cancels := by rintro ⟨⟩
    cancelled := by rintro ⟨⟩
    handled := fun _ _ _ => .inr (.inr (.inl hd))
    unstarted := fun hne => absurd (h.started_of_finished hover) hne
    unmade := by simp [State.deliverTo, State.complete, (Start.late hover).2.1]
    ran := fun _ => rfl
    receives := fun _ => h.started_of_finished hover }

end Inv

theorem inv_advanceStop (h : Inv s) (ht : s.advanceStop = some t) : Inv t := by
  cases hc : s.stop with
  | running cancel =>
    cases cancel with
    | requesting => exact h.stopRequests hc ht
    | storing => exact h.stopStores hc ht
    | notifying => exact h.stopNotifies hc ht
    | sending => exact h.stopSends hc ht
  | idle | finished =>
    simp only [State.advanceStop, hc] at ht
    cases ht

/-! ## The call of `start` -/

theorem Start.eq_idle {start : Start E} (h : start.isIdle = true) : start = .idle := by
  cases start <;> simp_all [Start.isIdle]

/-- `start` may stand at `start` and the stop callback at `callback`, and nobody is failing. -/
structure Fits (s : State V E) (start : Start E) (callback : Callback) : Prop where
  inProgress : start.inProgress = true
  sends : start.sends = 0
  taken : s.consumerTaken = true → start.consumed = true
  early : start.early = true → s.active = true
  settled : start.settled = true → s.active = false
  unfailing : ∀ error, start ≠ .failing error
  proceeds : start.proceeds = true → s.threw = none
  rejected : start.rejected = false
  inlined : ∀ cancel inCallback, start = .cancelling cancel inCallback →
    cancel.took = false ∧ s.tokenStop = true
  delivers : start.delivers = true → s.done = true
  unmade : start.unmade = true → callback = .absent
  ran : s.stop.isIdle = false → callback = .finished
  handled : s.stopPossible = true → start.installed = true → s.threw = none →
    callback = .registered ∨ s.stop.inProgress = true ∨ s.done = true ∨ s.active = false

namespace Inv

theorem start_idle (h : Inv s) (hh : s.holder ≠ .started) : s.start = .idle :=
  Start.eq_idle (h.idle.mpr hh)

/-- While `start` is in progress, the operation is started and nothing is handed over. -/
theorem in_progress (h : Inv s) (hs : s.start.inProgress = true) :
    s.holder = .started ∧ s.handedOver = false ∧ (s.destroy ≠ .idle → s.active = false) := by
  have hnot : s.start.isFinished ≠ true := by
    intro hover
    rw [(Start.late hover).2.2.2] at hs
    cases hs
  have hstarted : s.holder = .started := by
    by_contra hne
    rw [h.start_idle hne] at hs
    cases hs
  refine ⟨hstarted, ?_, ?_⟩
  · cases hh : s.handedOver with
    | false => rfl
    | true => exact absurd (h.handedOver hh).1 hnot
  · intro hd
    exact (h.started hstarted hd).resolve_left hnot

/-- Before the section that takes the result, nothing has taken it. -/
theorem not_taken (h : Inv s) (hs : s.start.inProgress = true) (hc : s.start.consumed = false) :
    ¬s.consumerTaken = true := by
  intro ht
  rcases h.taken ht with ht | ⟨ht, -⟩
  · rw [hc] at ht
    cases ht
  · exact ht (h.in_progress hs).1

/-- `start` moves on inside of its own call. -/
theorem startMoves {start : Start E} {callback : Callback} (h : Inv s)
    (hold : s.start.inProgress = true) (hsends : s.start.sends = 0) (hf : Fits s start callback) :
    Inv { s with start := start, callback := callback } := by
  obtain ⟨hstarted, hnot, hdestroy⟩ := h.in_progress hold
  have hidle : start.isIdle = false := by
    have hnew := hf.inProgress
    revert hnew
    cases start <;> simp [Start.inProgress, Start.isIdle]
  exact { h with
    winner := by simpa only [State.sending, hsends, hf.sends] using h.winner
    idle := by simp [hidle, hstarted]
    pending := fun _ _ => by simp [State.pending, hf.inProgress]
    handedOver := fun hh => by
      rw [show s.handedOver = true from hh] at hnot
      cases hnot
    taken := fun ht => .inl (hf.taken ht)
    early := hf.early
    settled := hf.settled
    failing := by
      rintro error (rfl | rfl)
      · exact absurd rfl (hf.unfailing error)
      · cases hf.sends
    proceeds := hf.proceeds
    rejected := hf.rejected
    inlined := hf.inlined
    delivers := hf.delivers
    handled := hf.handled
    started := fun _ hd => .inr (hdestroy hd)
    unstarted := fun hne => absurd hstarted hne
    unmade := hf.unmade
    ran := hf.ran }

/-- Before `start` takes the result it moves on when only the stop callback is in question. -/
theorem fits {start : Start E} {callback : Callback} (h : Inv s) (he : s.start.early = true)
    (hp : s.start.proceeds = true) (he' : start.early = true) (hp' : start.proceeds = true)
    (hinlined : ∀ cancel inCallback, start = .cancelling cancel inCallback →
      cancel.took = false ∧ s.tokenStop = true)
    (hunmade : start.unmade = true → callback = .absent)
    (hran : s.stop.isIdle = false → callback = .finished)
    (hhandled : s.stopPossible = true → start.installed = true → s.threw = none →
      callback = .registered ∨ s.stop.inProgress = true ∨ s.done = true ∨ s.active = false) :
    Fits s start callback := by
  have hold : s.start.inProgress = true ∧ s.start.consumed = false := by
    revert he
    cases s.start <;> simp [Start.early, Start.inProgress, Start.consumed]
  have hnew : start.inProgress = true ∧ start.sends = 0 ∧ start.settled = false ∧
      (∀ error, start ≠ .failing error) ∧ start.rejected = false ∧ start.delivers = false := by
    revert he' hp'
    cases start <;> simp [Start.early, Start.proceeds, Start.inProgress, Start.sends, Start.settled,
      Start.rejected, Start.delivers]
  obtain ⟨hin, hsends, hsettled, hunfailing, hrejected, hdelivers⟩ := hnew
  exact
    { inProgress := hin
      sends := hsends
      taken := fun ht => absurd ht (h.not_taken hold.1 hold.2)
      early := fun _ => h.early he
      settled := by simp [hsettled]
      unfailing := hunfailing
      proceeds := fun _ => h.proceeds hp
      rejected := hrejected
      inlined := hinlined
      delivers := by simp [hdelivers]
      unmade := hunmade
      ran := hran
      handled := hhandled }

/-- `start` returns to a consumer that was completed, or that another call will complete. -/
theorem startReturns (h : Inv s) (hold : s.start.inProgress = true) (hsends : s.start.sends = 0)
    (ha : s.active = false) : Inv { s with start := .finished } := by
  obtain ⟨hstarted, hnot, -⟩ := h.in_progress hold
  exact { h with
    winner := by
      have hw := h.winner
      simp only [State.sending, hsends] at hw
      exact hw
    idle := by simp [Start.isIdle, hstarted]
    pending := fun hact => by
      rw [show s.active = true from hact] at ha
      cases ha
    handedOver := fun hh => by
      rw [show s.handedOver = true from hh] at hnot
      cases hnot
    taken := fun _ => .inl rfl
    early := nofun
    settled := nofun
    failing := by simp
    proceeds := nofun
    rejected := rfl
    inlined := nofun
    delivers := nofun
    handled := fun _ _ _ => .inr (.inr (.inr ha))
    started := fun _ _ => .inl rfl
    unmade := nofun }

/-- `start` wins the exchange. -/
theorem startWins {start : Start E} (h : Inv s) (hold : s.start.inProgress = true)
    (ha : s.active = true) (hsends : s.start.sends = 0) (hnew : start.inProgress = true)
    (hone : start.sends = 1) (hearly : start.early = false)
    (htaken : start.consumed = s.start.consumed)
    (hmore : ∀ cancel inCallback, start ≠ .cancelling cancel inCallback)
    (hfailing : ∀ error, start = .failing error ∨ start = .sendingError error →
      s.threw = some error)
    (hproceeds : start.proceeds = true → s.threw = none) (hrejected : start.rejected = false)
    (hdelivers : start.delivers = true → s.done = true) :
    Inv { s.deactivate with start := start } := by
  obtain ⟨hstarted, hnot, -⟩ := h.in_progress hold
  have hw := h.winner
  rw [if_pos ha] at hw
  exact { h with
    winner := by
      simp only [State.sending, State.deactivate, hsends, hone] at hw ⊢
      simp
      omega
    idle := by
      have hidle : start.isIdle = false := by
        revert hnew
        cases start <;> simp [Start.inProgress, Start.isIdle]
      simp [hidle, hstarted, State.deactivate]
    consumerState := nofun
    pending := nofun
    handedOver := fun hh => by
      rw [show s.handedOver = true from hh] at hnot
      cases hnot
    taken := fun ht => by
      rcases h.taken ht with ht | ⟨ht, -⟩
      · exact .inl (htaken.trans ht)
      · exact absurd hstarted ht
    early := by simp [hearly]
    settled := fun _ => rfl
    failing := hfailing
    proceeds := hproceeds
    rejected := hrejected
    inlined := fun cancel inCallback he => absurd he (hmore cancel inCallback)
    delivers := hdelivers
    handled := fun _ _ _ => .inr (.inr (.inr rfl))
    started := fun _ _ => .inr rfl
    exchanged := fun _ _ => rfl
    unstarted := fun hne => absurd hstarted hne
    unmade := fun hu => by
      rw [show start.early = true from Start.early_of_unmade hu] at hearly
      cases hearly }

/-- `start` completes the consumer. -/
theorem startCompletes {start : Start E} (h : Inv s) (hone : s.start.sends = 1)
    (completion : Completion V E)
    (hc : (∃ error, s.threw = some error ∧ completion = .error error) ∨
      (s.threw = none ∧ s.result = some completion))
    (hnew : start = .unconsumed ∨ start = .finished)
    (htaken : s.consumerTaken = true → start.consumed = true) :
    Inv { s.complete completion with start := start } := by
  have hold : s.start.inProgress = true := by
    revert hone
    cases s.start <;> simp [Start.sends, Start.inProgress]
  obtain ⟨hstarted, hnot, hdestroy⟩ := h.in_progress hold
  have ha : s.active = false := h.inactive (by simp [State.sending, hone])
  have hstages : start.sends = 0 ∧ start.isIdle = false ∧ start.early = false ∧
      start.proceeds = false ∧ start.rejected = false ∧ start.delivers = false := by
    rcases hnew with rfl | rfl <;> exact ⟨rfl, rfl, rfl, rfl, rfl, rfl⟩
  obtain ⟨hsends, hidle, hearly, hproceeds, hrejected, hdelivers⟩ := hstages
  have hw := h.winner
  exact { h with
    winner := by
      simp [State.sending, State.complete, hone, hsends, ha] at hw ⊢
      omega
    idle := by simp [hidle, hstarted, State.complete]
    pending := fun hact => by
      rw [show s.active = true from hact] at ha
      cases ha
    handedOver := fun hh => by
      rw [show s.handedOver = true from hh] at hnot
      cases hnot
    taken := fun ht => .inl (htaken ht)
    early := by simp [hearly]
    settled := fun _ => ha
    contents := by
      intro x hm
      rcases List.mem_append.mp hm with hm | hm
      · exact h.contents x hm
      · rw [List.mem_singleton.mp hm]
        exact hc
    failing := by rcases hnew with rfl | rfl <;> simp
    proceeds := by simp [hproceeds]
    rejected := hrejected
    inlined := by rcases hnew with rfl | rfl <;> simp
    delivers := by simp [hdelivers]
    handled := fun _ _ _ => .inr (.inr (.inr ha))
    started := fun _ hd => .inr (hdestroy hd)
    unstarted := fun hne => absurd hstarted hne
    unmade := by rcases hnew with rfl | rfl <;> rintro ⟨⟩
    ran := fun _ => rfl
    receives := fun _ => hstarted }

/-- A cancel stores its result before the consumer is registered. -/
theorem storesStopped (h : Inv s) (hd : s.done = false) (ht : s.tokenStop = true)
    (hcb : s.consumerCb = false) : Inv (s.store .cancel .stopped) := by
  have hwrites := (h.unstored hd).1
  have hp := h.pending
  have ho := h.handedOver
  simp only [State.pending, State.handedOver, hcb] at hp ho
  exact { h with
    stored := fun _ => ⟨.cancel, .stopped, by simp [State.store, hwrites], rfl, by rintro ⟨⟩,
      fun _ => ⟨rfl, ht⟩⟩
    unstored := by rintro ⟨⟩
    childWrote := fun result hm => by simp [State.store, hwrites] at hm
    childStored := fun _ => rfl
    pending := hp
    handedOver := ho
    registered := by rintro ⟨⟩
    contents := h.contents_store hd .stopped
    delivers := fun _ => rfl
    cancelled := fun _ => rfl
    handled := fun _ _ _ => .inr (.inr (.inl rfl)) }

/-- The access to the stop token throws. -/
theorem startThrows (h : Inv s) (he : s.start.early = true) (hc : s.start.consumed = false)
    (hs : s.start.sends = 0) (error : E) :
    Inv { s with start := .failing error, threw := some error } := by
  have hold : s.start.inProgress = true := by
    revert he
    cases s.start <;> simp [Start.early, Start.inProgress]
  obtain ⟨hstarted, hnot, hdestroy⟩ := h.in_progress hold
  obtain ⟨-, -, -, -, hnone⟩ := h.quiet (h.early he)
  exact { h with
    winner := by
      have hw := h.winner
      simp only [State.sending, hs] at hw
      exact hw
    idle := by simp [Start.isIdle, hstarted]
    pending := fun _ _ => by simp [State.pending, Start.inProgress]
    handedOver := fun hh => by
      rw [show s.handedOver = true from hh] at hnot
      cases hnot
    taken := fun ht => by
      rcases h.taken ht with ht | ⟨ht, -⟩
      · rw [hc] at ht
        cases ht
      · exact absurd hstarted ht
    early := fun _ => h.early he
    settled := by rintro ⟨⟩
    contents := by simp [hnone]
    failing := by
      rintro e (he | he)
      · cases he
        rfl
      · cases he
    proceeds := by rintro ⟨⟩
    rejected := rfl
    inlined := by rintro _ _ ⟨⟩
    delivers := by rintro ⟨⟩
    handled := by rintro _ ⟨⟩
    started := fun _ hd => .inr (hdestroy hd)
    unmade := by rintro ⟨⟩ }

theorem stepEntered (h : Inv s) {throws : Option E} (hc : s.start = .entered)
    (ht : s.advanceStart throws = some t) : Inv t := by
  unfold State.advanceStart at ht
  rw [hc] at ht
  dsimp only at ht
  have hold : s.start.inProgress = true := by rw [hc]; rfl
  have hsends : s.start.sends = 0 := by rw [hc]; rfl
  have hearly : s.start.early = true := by rw [hc]; rfl
  have hproceeds : s.start.proceeds = true := by rw [hc]; rfl
  have hunmade := h.unmade (by rw [hc]; rfl)
  have hi : Inv { s with consumerState := true } :=
    { h with consumerState := fun _ => ⟨h.early hearly, (h.in_progress hold).1⟩ }
  cases throws with
  | some error =>
    cases ht
    exact hi.startThrows hearly (by rw [hc]; rfl) hsends error
  | none =>
    cases ht
    by_cases htoken : s.tokenStop = true
    · rw [if_pos htoken]
      refine hi.startMoves hold hsends
        (hi.fits hearly hproceeds rfl rfl ?_ (fun _ => hunmade) h.ran nofun)
      intro cancel inCallback he
      cases he
      exact ⟨rfl, htoken⟩
    · rw [if_neg htoken]
      exact hi.startMoves hold hsends
        (hi.fits hearly hproceeds rfl rfl nofun (fun _ => hunmade) h.ran nofun)

/-- The cancel of a stop that was requested before the consumer is registered. -/
theorem stepCancelling (h : Inv s) {cancel : Cancel} {inCallback : Bool} {throws : Option E}
    (hc : s.start = .cancelling cancel inCallback) (ht : s.advanceStart throws = some t) : Inv t := by
  unfold State.advanceStart at ht
  rw [hc] at ht
  dsimp only at ht
  have hold : s.start.inProgress = true := by rw [hc]; rfl
  have hsends : s.start.sends = 0 := by rw [hc]; rfl
  have hearly : s.start.early = true := by rw [hc]; rfl
  have hproceeds : s.start.proceeds = true := by rw [hc]; rfl
  obtain ⟨htook, htoken⟩ := h.inlined cancel inCallback hc
  have hunmade := h.unmade
  rw [hc] at hunmade
  cases cancel with
  | requesting =>
    cases ht
    have hi : Inv s.requestStop := { h with }
    refine hi.startMoves hold hsends (hi.fits hearly hproceeds rfl rfl ?_ ?_ h.ran nofun)
    · intro cancel inCallback he
      cases he
      exact ⟨rfl, htoken⟩
    · cases inCallback <;> exact hunmade
  | storing =>
    have hmoves : ∀ u : State V E, Inv u → u.start = s.start → u.callback = s.callback →
        u.done = true → Inv { u with start := if inCallback then .consuming else .registering } := by
      intro u hu hstart hcallback hdone
      refine hu.startMoves (by rw [hstart, hold]) (by rw [hstart, hsends])
        (hu.fits (by rw [hstart, hearly]) (by rw [hstart, hproceeds]) ?_ ?_ ?_ ?_ hu.ran
          fun _ _ _ => .inr (.inr (.inl hdone)))
      · cases inCallback <;> rfl
      · cases inCallback <;> rfl
      · cases inCallback <;> nofun
      · cases inCallback with
        | true => nofun
        | false => exact fun _ => hcallback.trans (hunmade rfl)
    simp only [State.tryCancel] at ht
    by_cases hd : s.done = true
    · rw [if_pos hd] at ht
      cases ht
      exact hmoves s h rfl rfl hd
    · rw [if_neg hd] at ht
      have hd : s.done = false := by simpa using hd
      have hcb : s.consumerCb = false := by
        have hnot := (h.in_progress hold).2.1
        simp only [State.handedOver, Bool.or_eq_false_iff] at hnot
        exact hnot.1.1
      rw [hcb] at ht
      cases ht
      exact hmoves _ (h.storesStopped hd htoken hcb) rfl rfl rfl
  | notifying => cases htook
  | sending => cases htook

/-- The stop callback of the consumer is registered, unless its constructor throws. -/
theorem stepRegistering (h : Inv s) {throws : Option E} (hc : s.start = .registering)
    (ht : s.advanceStart throws = some t) : Inv t := by
  unfold State.advanceStart at ht
  rw [hc] at ht
  dsimp only at ht
  have hold : s.start.inProgress = true := by rw [hc]; rfl
  have hsends : s.start.sends = 0 := by rw [hc]; rfl
  have hearly : s.start.early = true := by rw [hc]; rfl
  have hproceeds : s.start.proceeds = true := by rw [hc]; rfl
  have hran : s.stop.isIdle = true := by
    cases hstop : s.stop.isIdle with
    | true => rfl
    | false =>
      have hover := h.ran hstop
      rw [h.unmade (by rw [hc]; rfl)] at hover
      cases hover
  have hnever : ∀ {callback : Callback}, s.stop.isIdle = false → callback = .finished := by simp [hran]
  cases throws with
  | some error =>
    cases ht
    exact h.startThrows hearly (by rw [hc]; rfl) hsends error
  | none =>
    dsimp only at ht
    split_ifs at ht with hpossible htoken
    · cases ht
      refine h.startMoves hold hsends
        (h.fits hearly hproceeds rfl rfl ?_ nofun (fun _ => rfl) nofun)
      intro cancel inCallback he
      cases he
      exact ⟨rfl, htoken⟩
    · cases ht
      exact h.startMoves hold hsends
        (h.fits hearly hproceeds rfl rfl nofun nofun hnever fun _ _ _ => .inl rfl)
    · cases ht
      exact h.startMoves hold hsends
        (h.fits hearly hproceeds rfl rfl nofun nofun hnever fun hp => absurd hp hpossible)

theorem stepFailing (h : Inv s) {error : E} {throws : Option E} (hc : s.start = .failing error)
    (ht : s.advanceStart throws = some t) : Inv t := by
  unfold State.advanceStart at ht
  rw [hc] at ht
  dsimp only at ht
  have hold : s.start.inProgress = true := by rw [hc]; rfl
  have ha := h.early (by rw [hc]; rfl)
  rw [if_pos ha] at ht
  cases ht
  refine h.startWins hold ha (by rw [hc]; rfl) rfl rfl rfl (by rw [hc]; rfl) nofun ?_ nofun rfl nofun
  rintro e (he | he)
  · cases he
  · cases he
    exact h.failing error (.inl hc)

theorem stepSendingError (h : Inv s) {error : E} {throws : Option E} (hc : s.start = .sendingError error)
    (ht : s.advanceStart throws = some t) : Inv t := by
  unfold State.advanceStart at ht
  rw [hc] at ht
  dsimp only at ht
  cases ht
  have htaken := h.not_taken (by rw [hc]; rfl) (by rw [hc]; rfl)
  exact h.startCompletes (by rw [hc]; rfl) (.error error)
    (.inl ⟨error, h.failing error (.inr hc), rfl⟩) (.inl rfl) fun hta => absurd hta htaken

theorem stepUnconsumed (h : Inv s) {throws : Option E} (hc : s.start = .unconsumed)
    (ht : s.advanceStart throws = some t) : Inv t := by
  unfold State.advanceStart at ht
  rw [hc] at ht
  dsimp only at ht
  have hold : s.start.inProgress = true := by rw [hc]; rfl
  have ha := h.settled (by rw [hc]; rfl)
  split_ifs at ht with htaken hd
  · cases ht
    exact h.startReturns hold (by rw [hc]; rfl) ha
  · cases ht
    have hi := h.startReturns hold (by rw [hc]; rfl) ha
    exact { hi with taken := fun _ => .inl rfl }
  · cases ht
    have hfits : Fits s .requesting s.callback :=
      { inProgress := rfl
        sends := rfl
        taken := fun _ => rfl
        early := nofun
        settled := fun _ => ha
        unfailing := nofun
        proceeds := nofun
        rejected := rfl
        inlined := nofun
        delivers := nofun
        unmade := nofun
        ran := h.ran
        handled := nofun }
    exact { h.startMoves hold (by rw [hc]; rfl) hfits with taken := fun _ => .inl rfl }

theorem stepRequesting (h : Inv s) {throws : Option E} (hc : s.start = .requesting)
    (ht : s.advanceStart throws = some t) : Inv t := by
  unfold State.advanceStart at ht
  rw [hc] at ht
  dsimp only at ht
  have hold : s.start.inProgress = true := by rw [hc]; rfl
  have ha := h.settled (by rw [hc]; rfl)
  cases ht
  have hi : Inv s.requestStop := { h with }
  exact hi.startReturns hold (by rw [show s.requestStop.start = _ from hc]; rfl) ha

/-- The consumer gets the stored result, or is entered as the one that waits for it. -/
theorem stepConsuming (h : Inv s) {throws : Option E} (hc : s.start = .consuming)
    (ht : s.advanceStart throws = some t) : Inv t := by
  unfold State.advanceStart at ht
  rw [hc] at ht
  dsimp only at ht
  have hold : s.start.inProgress = true := by rw [hc]; rfl
  have ha := h.early (by rw [hc]; rfl)
  have hthrew := h.proceeds (by rw [hc]; rfl)
  obtain ⟨hstarted, hnot, hdestroy⟩ := h.in_progress hold
  have htaken := h.not_taken hold (by rw [hc]; rfl)
  rw [if_neg htaken] at ht
  have hw := h.winner
  simp only [State.sending, hc] at hw
  have hhandled := h.handled
  rw [hc] at hhandled
  split_ifs at ht with hd
  · cases ht
    have hfits : Fits s .delivering s.callback :=
      { inProgress := rfl
        sends := rfl
        taken := fun _ => rfl
        early := by rintro ⟨⟩
        settled := by rintro ⟨⟩
        unfailing := by rintro _ ⟨⟩
        proceeds := fun _ => hthrew
        rejected := rfl
        inlined := by rintro _ _ ⟨⟩
        delivers := fun _ => hd
        unmade := by rintro ⟨⟩
        ran := h.ran
        handled := hhandled }
    exact { h.startMoves hold (by rw [hc]; rfl) hfits with taken := fun _ => .inl rfl }
  · cases ht
    exact { h with
      winner := hw
      idle := by simp [Start.isIdle, hstarted]
      pending := fun _ _ => by simp [State.pending]
      handedOver := fun _ => ⟨rfl, hthrew⟩
      registered := fun _ => by simpa using hd
      taken := fun _ => .inl rfl
      early := by rintro ⟨⟩
      settled := by rintro ⟨⟩
      failing := by simp
      proceeds := by rintro ⟨⟩
      rejected := rfl
      inlined := by simp
      delivers := by rintro ⟨⟩
      handled := hhandled
      started := fun _ _ => .inl rfl
      unmade := by rintro ⟨⟩ }

theorem stepDelivering (h : Inv s) {throws : Option E} (hc : s.start = .delivering)
    (ht : s.advanceStart throws = some t) : Inv t := by
  unfold State.advanceStart at ht
  rw [hc] at ht
  dsimp only at ht
  have hold : s.start.inProgress = true := by rw [hc]; rfl
  have hd : s.done = true := h.delivers (by rw [hc]; rfl)
  have hthrew := h.proceeds (by rw [hc]; rfl)
  split_ifs at ht with ha
  · cases ht
    exact h.startWins hold ha (by rw [hc]; rfl) rfl rfl rfl (by rw [hc]; rfl) nofun (by simp)
      (fun _ => hthrew) rfl (fun _ => hd)
  · cases ht
    exact h.startReturns hold (by rw [hc]; rfl) (by simpa using ha)

theorem stepSending (h : Inv s) {throws : Option E} (hc : s.start = .sending)
    (ht : s.advanceStart throws = some t) : Inv t := by
  unfold State.advanceStart at ht
  rw [hc] at ht
  dsimp only at ht
  have hd : s.done = true := h.delivers (by rw [hc]; rfl)
  obtain ⟨writer, result, -, hr, -⟩ := h.stored hd
  cases ht
  refine h.startCompletes (by rw [hc]; rfl) _ (.inr ⟨h.proceeds (by rw [hc]; rfl), ?_⟩) (.inr rfl)
    fun _ => rfl
  rw [hr]
  rfl

end Inv

theorem inv_advanceStart (h : Inv s) {throws : Option E} (ht : s.advanceStart throws = some t) :
    Inv t := by
  cases hc : s.start with
  | entered => exact h.stepEntered hc ht
  | cancelling cancel inCallback => exact h.stepCancelling hc ht
  | registering => exact h.stepRegistering hc ht
  | failing error => exact h.stepFailing hc ht
  | sendingError error => exact h.stepSendingError hc ht
  | unconsumed => exact h.stepUnconsumed hc ht
  | requesting => exact h.stepRequesting hc ht
  | consuming => exact h.stepConsuming hc ht
  | delivering => exact h.stepDelivering hc ht
  | sending => exact h.stepSending hc ht
  | idle | finished =>
    simp only [State.advanceStart, hc] at ht
    cases ht
  | refused | sendingStopped =>
    have hr := h.rejected
    rw [hc] at hr
    cases hr

/-! ## The users -/

theorem inv_start (h : Inv s) (hh : s.holder = .op) (hd : s.destroy = .idle) :
    Inv { s with holder := .started, start := .entered } := by
  have hne : s.holder ≠ .started := by simp [hh]
  have hidle := h.start_idle hne
  have hw := h.winner
  have hthrew := h.proceeds (by rw [hidle]; rfl)
  have hnot : s.handedOver ≠ true := fun ho => hne (h.started_of_finished (h.handedOver ho).1)
  have htaken : s.consumerTaken ≠ true := fun ht => by
    rcases h.taken ht with ht | ⟨-, ht⟩
    · rw [hidle] at ht
      cases ht
    · exact ht hd
  simp only [State.sending, hidle] at hw
  have hfresh : s.child.isFresh ≠ true := fun hf => by
    rw [h.fresh hf] at hh
    cases hh
  exact { h with
    fresh := fun hf => absurd hf hfresh
    winner := hw
    idle := by simp [Start.isIdle]
    spawning := by rintro ⟨⟩
    consumerState := fun hc => absurd (h.consumerState hc).2 hne
    pending := fun _ _ => rfl
    handedOver := fun ho => absurd ho hnot
    taken := fun ht => absurd ht htaken
    early := fun _ => (h.unstarted hne (by rw [hd]; rfl)).1
    settled := by rintro ⟨⟩
    failing := by simp
    proceeds := fun _ => hthrew
    rejected := rfl
    inlined := by simp
    delivers := by rintro ⟨⟩
    handled := by rintro _ ⟨⟩
    started := fun _ hnd => absurd hd hnd
    abandons := by simp [hd, Destroy.abandons]
    exchanged := by simp [hd, Destroy.exchanged]
    unstarted := by simp
    unmade := fun _ => (h.unstarted hne (by rw [hd]; rfl)).2
    receives := fun _ => rfl }

/-- The sender is handed out, or becomes an operation. -/
theorem Inv.holderMoves {holder : Holder} (h : Inv s) (hne : s.holder ≠ .started)
    (hnew : holder = .sender ∨ holder = .op) (hc : s.child.isFresh = false)
    (hd : s.destroy = .idle) : Inv { s with holder := holder } := by
  have hidle := h.start_idle hne
  have hnew : holder ≠ .started ∧ holder ≠ .spawning := by
    rcases hnew with rfl | rfl <;> simp
  exact { h with
    fresh := fun hf => by
      rw [show s.child.isFresh = true from hf] at hc
      cases hc
    idle := by simp [hidle, Start.isIdle, hnew.1]
    spawning := fun _ => hd
    consumerState := fun hcs => absurd (h.consumerState hcs).2 hne
    pending := fun _ hs => absurd hs hnew.1
    taken := fun ht => by
      rcases h.taken ht with ht | ⟨-, ht⟩
      · exact .inl ht
      · exact absurd hd ht
    started := fun hs => absurd hs hnew.1
    abandons := fun _ => hnew.1
    exchanged := by simp [hd, Destroy.exchanged]
    unstarted := fun _ => h.unstarted hne
    receives := fun hc => absurd (h.receives hc) hne }

theorem inv_stopConsumer (h : Inv s) (hp : s.stopPossible = true) : Inv { s with tokenStop := true } :=
  { h with
    stored := fun hd => by
      obtain ⟨writer, result, hw, hr, hchild, hcancel⟩ := h.stored hd
      exact ⟨writer, result, hw, hr, hchild, fun hc => ⟨(hcancel hc).1, rfl⟩⟩
    inlined := fun cancel inCallback hc => ⟨(h.inlined cancel inCallback hc).1, rfl⟩
    cancels := fun _ => rfl
    possible := fun _ => hp }

/-- A state without an owner has a child that is over. -/
theorem Inv.lost (h : Inv s) (ho : s.owned = false) : s.child.isFinished = true := by
  simp only [State.owned, Bool.or_eq_false_iff] at ho
  obtain ⟨⟨⟨⟨⟨⟨hholder, -⟩, hcompleting⟩, -⟩, -⟩, hkeep⟩, -⟩ := ho
  have hk := h.keepalive
  rw [hkeep] at hk
  cases hc : s.child with
  | fresh =>
    have hh := h.fresh (by rw [hc]; rfl)
    rw [hh, h.spawning hh] at hholder
    cases hholder
  | running =>
    rw [h.associated (by rw [hc]; rfl), hc] at hk
    cases hk
  | finished => rfl
  | _ =>
    rw [hc] at hcompleting
    cases hcompleting

theorem inv_runCallback (h : Inv s) (ht : s.tokenStop = true) (hc : s.callback = .registered) :
    Inv { s with callback := .finished, stop := if s.owned then .running .requesting else .finished } := by
  have hidle : s.stop = .idle := by
    cases hs : s.stop with
    | idle => rfl
    | _ =>
      have hover := h.ran (by rw [hs]; rfl)
      rw [hc] at hover
      cases hover
  have hw := h.winner
  have hp := h.pending
  have ho := h.handedOver
  simp only [State.sending, State.pending, State.handedOver, hidle] at hw hp ho
  have hunstarted : s.holder ≠ .started → s.destroy.exchanged = true := by
    intro hne
    cases hx : s.destroy.exchanged with
    | true => rfl
    | false =>
      have habs := (h.unstarted hne hx).2
      rw [hc] at habs
      cases habs
  have hunmade : s.start.unmade ≠ true := fun hu => by
    have habs := h.unmade hu
    rw [hc] at habs
    cases habs
  cases howned : s.owned with
  | true =>
    exact { h with
      winner := hw
      pending := hp
      handedOver := ho
      cancels := fun _ => ht
      cancelled := by rintro ⟨⟩
      handled := fun _ _ _ => .inr (.inl rfl)
      unstarted := fun hne hx => by
        rw [show s.destroy.exchanged = true from hunstarted hne] at hx
        cases hx
      unmade := fun hu => absurd hu hunmade
      ran := fun _ => rfl }
  | false =>
    have hover := h.lost howned
    have hd : s.done = true := h.childStored (by
      revert hover
      cases s.child <;> simp [Child.isFinished, Child.stored])
    exact { h with
      winner := hw
      pending := hp
      handedOver := ho
      cancels := by rintro ⟨⟩
      cancelled := by rintro ⟨⟩
      handled := fun _ _ _ => .inr (.inr (.inl hd))
      unstarted := fun hne hx => by
        rw [show s.destroy.exchanged = true from hunstarted hne] at hx
        cases hx
      unmade := fun hu => absurd hu hunmade
      ran := fun _ => rfl }

/-- The destructor of a sender or an operation that was not started begins. -/
theorem Inv.abandonUnconsumed (h : Inv s) (hd : s.destroy = .idle) (hh : s.holder ≠ .spawning)
    (hs : s.holder ≠ .started) : Inv { s with destroy := .unconsumed } :=
  { h with
    spawning := fun hsp => absurd hsp hh
    taken := fun _ => .inr ⟨hs, nofun⟩
    started := fun hst => absurd hst hs
    abandons := fun _ => hs
    exchanged := nofun
    unstarted := fun _ _ => h.unstarted hs (by rw [hd]; rfl) }

/-- The destructor moves on inside of `__abandon_unconsumed`, or leaves it. -/
theorem Inv.abandonMoves {destroy : Destroy} (h : Inv s) (hold : s.destroy.abandons = true)
    (hne : destroy ≠ .idle) (hx : destroy.exchanged = true → s.holder = .sender) :
    Inv { s with destroy := destroy } := by
  have hs := h.abandons hold
  have hd : s.destroy.exchanged = false := by
    revert hold
    cases s.destroy <;> simp [Destroy.abandons, Destroy.exchanged]
  exact { h with
    spawning := fun hsp => by
      rw [h.spawning hsp] at hold
      cases hold
    taken := fun _ => .inr ⟨hs, hne⟩
    started := fun hst => absurd hst hs
    abandons := fun _ => hs
    exchanged := fun he hns => absurd (hx he) hns
    unstarted := fun _ _ => h.unstarted hs hd }

/-- After the exchange of `__abandon`. -/
theorem Inv.detachMoves {destroy : Destroy} {consumerCb : Bool} {callback : Callback} (h : Inv s)
    (hold : s.destroy.exchanged = true) (hnew : destroy.exchanged = true)
    (hcb : consumerCb = true → s.consumerCb = true) (hcall : callback = s.callback ∨ callback = .finished) :
    Inv { s with consumerCb := consumerCb, callback := callback, destroy := destroy } := by
  have ha : s.holder = .started → s.active = false := fun hs => h.exchanged hold (by simp [hs])
  have hidle : s.start.isIdle ≠ true → s.active = false := fun hi => by
    apply ha
    by_contra hne
    exact hi (h.idle.mpr hne)
  have hne : destroy ≠ .idle := by
    rintro rfl
    cases hnew
  exact { h with
    spawning := fun hsp => by
      rw [h.spawning hsp] at hold
      cases hold
    pending := fun hact hs => by
      rw [show s.active = true from hact] at ha
      cases ha hs
    handedOver := fun hh => h.handedOver (by
      simp only [State.handedOver, Bool.or_eq_true] at hh ⊢
      rcases hh with (hh | hh) | hh
      · exact .inl (.inl (hcb hh))
      · exact .inl (.inr hh)
      · exact .inr hh)
    registered := fun hh => h.registered (hcb hh)
    taken := fun ht => by
      rcases h.taken ht with ht | ⟨hs, -⟩
      · exact .inl ht
      · exact .inr ⟨hs, hne⟩
    handled := fun _ hi _ => by
      refine .inr (.inr (.inr (hidle fun hidle => ?_)))
      revert hi hidle
      show s.start.installed = true → s.start.isIdle = true → False
      cases s.start <;> simp [Start.isIdle, Start.installed]
    started := fun hs _ => .inr (ha hs)
    abandons := fun hx => by
      revert hx hnew
      cases destroy <;> simp [Destroy.abandons, Destroy.exchanged]
    exchanged := fun _ => h.exchanged hold
    unstarted := fun _ hx => by
      rw [show destroy.exchanged = false from hx] at hnew
      cases hnew
    unmade := fun hu => by
      have hact := h.early (Start.early_of_unmade hu)
      rw [hidle fun hi => by
        revert hu hi
        show s.start.unmade = true → s.start.isIdle = true → False
        cases s.start <;> simp [Start.isIdle, Start.unmade]] at hact
      cases hact
    ran := fun hr => by
      rcases hcall with hcall | hcall
      · exact hcall.trans (h.ran hr)
      · exact hcall }

theorem inv_advanceDestroy (h : Inv s) (ht : s.advanceDestroy = some t) : Inv t := by
  unfold State.advanceDestroy at ht
  have hnext : ∀ next : Destroy, (if s.holder = .sender then .finished else .exchanging) = next →
      next ≠ .idle ∧ next.abandons = false ∧ (next.exchanged = true → s.holder = .sender) := by
    rintro next rfl
    split_ifs with hh
    · exact ⟨by rintro ⟨⟩, rfl, fun _ => hh⟩
    · exact ⟨by rintro ⟨⟩, rfl, by rintro ⟨⟩⟩
  dsimp only at ht
  generalize hn : (if s.holder = .sender then Destroy.finished else Destroy.exchanging) = next at ht
  obtain ⟨hne, hna, hnx⟩ := hnext next hn
  split at ht
  · cases ht
  · cases ht
  · next hc =>
    have hold : s.destroy.abandons = true := by rw [hc]; rfl
    have htaken : ∀ {destroy}, destroy ≠ .idle → Inv { s with destroy := destroy } →
        Inv { s with consumerTaken := true, destroy := destroy } := fun hne hi =>
      { hi with taken := fun _ => .inr ⟨h.abandons hold, hne⟩ }
    split_ifs at ht with htk hd
    · cases ht
      exact h.abandonMoves hold hne hnx
    · cases ht
      exact htaken hne (h.abandonMoves hold hne hnx)
    · cases ht
      -- The child has not settled: the destructor requests its stop before the exchange.
      exact htaken (by rintro ⟨⟩) (h.abandonMoves hold (by rintro ⟨⟩) (by rintro ⟨⟩))
  · next hc =>
    cases ht
    have hi : Inv s.requestStop := { h with }
    exact hi.abandonMoves (by rw [show s.requestStop.destroy = _ from hc]; rfl) hne hnx
  · next hc =>
    have hnidle : s.destroy ≠ .idle := by simp [hc]
    have hns : s.holder ≠ .spawning := fun hs => hnidle (h.spawning hs)
    split_ifs at ht with ha
    · cases ht
      obtain ⟨habandoned, hchild, hstop, hstart, hnone⟩ := h.quiet ha
      -- A destructor that runs inside a start in progress finds `active` cleared.
      have hearly : s.start.early ≠ true := fun he => by
        have hold : s.start.inProgress = true := by
          revert he
          cases s.start <;> simp [Start.early, Start.inProgress]
        rw [(h.in_progress hold).2.2 hnidle] at ha
        cases ha
      exact { h with
        winner := by simp [State.sending, State.deactivate, hchild, hstop, hstart, hnone]
        spawning := fun hs => absurd hs hns
        consumerState := by rintro ⟨⟩
        pending := by rintro ⟨⟩
        taken := fun htk => by
          rcases h.taken htk with htk | ⟨hs, -⟩
          · exact .inl htk
          · exact .inr ⟨hs, by rintro ⟨⟩⟩
        early := fun he => absurd he hearly
        settled := fun _ => rfl
        handled := fun _ _ _ => .inr (.inr (.inr rfl))
        started := fun _ _ => .inr rfl
        abandons := by rintro ⟨⟩
        exchanged := fun _ _ => rfl
        unstarted := by rintro _ ⟨⟩ }
    · cases ht
      have ha : s.active = false := by simpa using ha
      exact { h with
        spawning := fun hs => absurd hs hns
        taken := fun htk => by
          rcases h.taken htk with htk | ⟨hs, -⟩
          · exact .inl htk
          · exact .inr ⟨hs, by rintro ⟨⟩⟩
        started := fun _ _ => .inr ha
        abandons := by rintro ⟨⟩
        exchanged := fun _ _ => ha
        unstarted := by rintro _ ⟨⟩ }
  · next hc =>
    cases ht
    exact h.detachMoves (by rw [hc]; rfl) rfl (by rintro ⟨⟩) (.inr rfl)
  · next hc =>
    cases ht
    exact h.detachMoves (by rw [hc]; rfl) rfl id (.inr rfl)
  · next hc =>
    cases ht
    have hi : Inv s.requestStop := { h with }
    exact hi.detachMoves (by rw [show s.requestStop.destroy = _ from hc]; rfl) rfl id (.inl rfl)

theorem inv_act {l : Label V E} (h : Inv s) (ht : s.act l = some t) : Inv t := by
  cases l with
  | spawn throws =>
    simp only [State.act] at ht
    split_ifs at ht with hc
    cases ht
    exact inv_spawn h hc throws
  | returnSender =>
    simp only [State.act] at ht
    split_ifs at ht with hc
    cases ht
    exact h.holderMoves (by simp [hc.1]) (.inl rfl) hc.2.1 (h.spawning hc.1)
  | childCompletes completion throws =>
    simp only [State.act] at ht
    split_ifs at ht with hc
    cases ht
    exact inv_childCompletes h hc completion throws
  | advanceChild => exact inv_advanceChild h ht
  | stopChild =>
    simp only [State.act] at ht
    split_ifs at ht with hc
    cases ht
    exact { h with }
  | connect throws =>
    -- The child was started by `spawn`, before there was a sender to connect.
    have hfresh : s.holder = .sender → s.child.isFresh = false := by
      intro hh
      cases hf : s.child.isFresh with
      | false => rfl
      | true => simp [h.fresh hf] at hh
    simp only [State.act] at ht
    split_ifs at ht with hc hthrows
    · cases ht
      exact h.abandonUnconsumed hc.2 (by simp [hc.1]) (by simp [hc.1])
    · cases ht
      exact h.holderMoves (by simp [hc.1]) (.inr rfl) (hfresh hc.1) hc.2
  | start =>
    simp only [State.act] at ht
    split_ifs at ht with hc
    cases ht
    exact inv_start h hc.1 hc.2
  | advanceStart throws => exact inv_advanceStart h ht
  | stopConsumer =>
    simp only [State.act] at ht
    split_ifs at ht with hc
    cases ht
    exact inv_stopConsumer h hc
  | runCallback =>
    simp only [State.act] at ht
    split at ht
    · next hc =>
      cases ht
      exact inv_runCallback h hc.1 hc.2
    · cases ht
  | advanceStop => exact inv_advanceStop h ht
  | destroy =>
    simp only [State.act] at ht
    split at ht
    · next hd =>
      split at ht
      · cases ht
      · next hh =>
        cases ht
        exact h.abandonUnconsumed hd (by simp [hh]) (by simp [hh])
      · next hh =>
        cases ht
        exact h.abandonUnconsumed hd (by simp [hh]) (by simp [hh])
      · next hh =>
        split_ifs at ht with hs
        cases ht
        exact { h with
          spawning := fun hsp => by
            rw [hh] at hsp
            cases hsp
          taken := fun htk => by
            rcases h.taken htk with htk | ⟨hne, -⟩
            · exact .inl htk
            · exact absurd hh hne
          started := fun _ _ => hs
          abandons := nofun
          exchanged := nofun
          unstarted := fun hne => absurd hh hne }
    · cases ht
  | advanceDestroy => exact inv_advanceDestroy h ht

end CCForge.SpawnFuture
