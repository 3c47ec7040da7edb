import CCForge.FrameChain.Phases

/-!
# Abandoning a chain of tasks

However the threads interleave, the frames of a chain are destroyed at most once, and only when
no thread is inside of a resume of the chain and none is going to resume it. A bridge causes at
most one resume, and one that completed before it was claimed has caused it before the frames are
destroyed. An abandonment is over in a few steps of its own once the resumes have returned.

An abandonment inside of the `start` of a sender does not have these properties.
-/

namespace CCForge.FrameChain.Arbitration

variable {s : State} {ph ph' : Phase} {t : ThreadId} {p : Pc}

/-! ## The start and the deliveries -/

theorem Inv.of_idle (h : Inv s ph) (hab : s.abandoner = .idle) :
    s.abandoning = false ∧ s.deferredDestroy = false ∧ s.frames = .alive :=
  (arbitrated_idle hab).mp h.arbitrated

theorem Inv.idle_of_launcher (h : Inv s ph) (hl : s.launcher = some t) : s.abandoner = .idle := by
  have hne : s.launcher ≠ none := by
    rw [hl]
    rintro ⟨⟩
  rcases h.arbitrated.cases with ha | ⟨_, ha⟩ | ha | ha
  · exact ha.1
  · exact absurd ha.launcher hne
  · exact absurd ha.2.2.2.1 hne
  · exact absurd ha.2.2.1 hne

theorem Inv.launch {s' : State} (h : Inv s ph) (hs : s.launch t = some s') : ∃ ph', Inv s' ph' := by
  unfold State.launch at hs
  split at hs
  · rename_i hcond
    obtain ⟨hst, hab, hout⟩ := hcond
    cases hs
    have hidle := h.of_idle hab
    -- a chain that is not started has no bridge, and is not gone while nobody abandons it
    rcases h.agrees.started hst with hph | hph
    · subst hph
      refine ⟨.launching t, ⟨h.agrees.bridge, h.agrees.op, h.agrees.delivery, rfl, h.agrees.control,
        by rintro ⟨⟩, ?_, h.agrees.callback⟩, h.scopes, fun _ => h.asleep (.inl rfl),
        by rintro ⟨⟩, ?_, h.history.keep rfl rfl rfl (fun g hg => hg) rfl,
        ⟨h.engaged.abandoner, h.engaged.frames, h.engaged.place⟩, h.teardowns⟩
      · intro hf
        rcases h.agrees.finalized hf with he | he <;> cases he
      · exact (arbitrated_idle (by exact hab)).mpr hidle
    · exact absurd hidle.2.2 (h.gone hph)
  · cases hs

theorem Inv.credit {s' : State} (h : Inv s ph) (hs : s.credit = some s') : ∃ ph', Inv s' ph' := by
  obtain ⟨t, hl, rfl⟩ := Option.map_eq_some_iff.mp hs
  have hab := h.idle_of_launcher hl
  -- only a launch is between the store of `started` and its resume
  have hph : ph = .launching t := by
    have hl' := h.agrees.launcher
    rw [hl] at hl'
    cases ph <;> simp_all [Phase.launcher]
  subst hph
  have hzero := h.asleep (.inr rfl)
  have hsc : (s.pc t).scoped = false := (hzero ▸ h.scopes).of_zero t
  have hnone : s.delivery = none := h.agrees.delivery
  refine ⟨.running t false, ⟨h.agrees.bridge, h.agrees.op, h.agrees.delivery, rfl,
    h.agrees.control.take (by rintro u q ⟨⟩), fun hf => ?_, fun hf => ?_,
    callback_update h.agrees.callback (by rintro ⟨⟩)⟩, h.scopes.enter hsc rfl,
    (by rintro (he | he) <;> cases he), by rintro ⟨⟩, ?_,
    h.history.keep rfl rfl rfl (fun g hg => hg) rfl,
    ⟨fun d hd => ?_, fun d c hd => ?_, fun d hd => ?_⟩,
    h.teardowns⟩
  · rcases h.agrees.started hf with he | he <;> cases he
  · rcases h.agrees.finalized hf with he | he <;> cases he
  · exact (arbitrated_idle (by exact hab)).mpr (h.of_idle hab)
  · rw [show s.delivery = some d from hd] at hnone
    cases hnone
  · rw [show s.delivery = some d from hd] at hnone
    cases hnone
  · rw [show s.delivery = some d from hd] at hnone
    cases hnone

theorem Inv.signal {s' : State} (h : Inv s ph) (hfree : s.free t = true)
    (hs : s.signal t = some s') : ∃ ph', Inv s' ph' := by
  obtain ⟨op, hop, hs⟩ := Option.bind_eq_some_iff.mp hs
  split at hs
  · rename_i hcond
    obtain ⟨hstarted, hsig, hnone, hplace⟩ := hcond
    cases hs
    obtain ⟨_, hdel, habn, hfr⟩ := free_spec hfree
    have hengaged : Engaged { s with
        op := some { op with signalled := true }, delivery := some ⟨op.generation, t, false⟩ } := by
      refine ⟨?_, ?_, ?_⟩
      · rintro d ⟨⟩
        exact habn
      · rintro d c ⟨⟩
        exact hfr c
      · rintro d ⟨⟩
        exact hplace
    -- the operation is started and has not signalled, so the chain is suspended
    have hph : ph = .parked op.generation none ∨ ph = .claimed op.generation false none := by
      have ho := h.agrees.op
      have hd := h.agrees.delivery
      rw [hop] at ho
      rw [hnone] at hd
      cases ph with
      | parked g call =>
        simp only [Phase.op, Option.some.injEq] at ho
        subst ho
        cases call with
        | none => exact .inl rfl
        | some u => cases hsig
      | claimed g signalled call =>
        simp only [Phase.op, Option.some.injEq] at ho
        subst ho
        cases hsig
        cases call with
        | none => exact .inr rfl
        | some u => cases hd
      | _ => simp_all [Phase.op]
    have hop' : ({ op with signalled := true } : Op) = ⟨op.generation, true, true⟩ := by
      rw [← hstarted]
    rcases hph with hph | hph
    · subst hph
      refine ⟨.parked op.generation (some t), ⟨h.agrees.bridge, congrArg some hop', rfl,
        h.agrees.launcher, h.agrees.control, fun hf => ?_, fun hf => ?_, h.agrees.callback⟩,
        h.scopes, (by rintro (he | he) <;> cases he), by rintro ⟨⟩, ?_,
        h.history.keep rfl rfl rfl (fun g hg => hg) rfl, hengaged, h.teardowns⟩
      · rcases h.agrees.started hf with he | he <;> cases he
      · rcases h.agrees.finalized hf with he | he <;> cases he
      · exact h.arbitrated.frame rfl rfl rfl rfl id (fun _ => id) (fun _ _ => rfl) (fun _ => id)
          (fun _ => id) fun _ hq => absurd hq.atRest (by rintro ⟨⟩)
    · subst hph
      refine ⟨.claimed op.generation true (some t), ⟨h.agrees.bridge, congrArg some hop', rfl,
        h.agrees.launcher, h.agrees.control, fun hf => ?_, fun hf => ?_, h.agrees.callback⟩,
        h.scopes, (by rintro (he | he) <;> cases he), by rintro ⟨⟩, ?_,
        h.history.keep rfl rfl rfl (fun g hg => hg) rfl, hengaged, h.teardowns⟩
      · rcases h.agrees.started hf with he | he <;> cases he
      · rcases h.agrees.finalized hf with he | he <;> cases he
      · exact h.arbitrated.frame rfl rfl rfl rfl id (fun _ => id) (fun _ _ => rfl) (fun _ => id)
          (fun _ => id) fun _ hq => ⟨rfl, hq.resumeCount⟩
  · cases hs

/-- A call of the receiver is made for a chain that is suspended. -/
theorem Agrees.called {d : Delivery} (h : Agrees s ph) (hd : s.delivery = some d) :
    d.won = false ∧ ph = .parked d.generation (some d.thread) ∨
    (∃ signalled, d.won = false ∧ ph = .claimed d.generation signalled (some d.thread)) ∨
    d.won = true ∧ ph = .granted d.generation d.thread := by
  have hph := h.delivery
  rw [hd] at hph
  cases ph with
  | parked g call =>
    cases call with
    | none => cases hph
    | some u =>
      cases hph
      exact .inl ⟨rfl, rfl⟩
  | claimed g signalled call =>
    cases call with
    | none => cases hph
    | some u =>
      cases hph
      exact .inr (.inl ⟨signalled, rfl, rfl⟩)
  | granted g u =>
    cases hph
    exact .inr (.inr ⟨rfl, rfl⟩)
  | _ => cases hph

theorem Inv.complete {s' : State} (h : Inv s ph) (hs : s.complete = some s') :
    ∃ ph', Inv s' ph' := by
  obtain ⟨d, hd, hs⟩ := Option.bind_eq_some_iff.mp hs
  -- the bridge is suspended, claimed, or was completed by this call before
  rcases h.agrees.called hd with ⟨hw, hph⟩ | ⟨signalled, hw, hph⟩ | ⟨hw, hph⟩
  · subst hph
    have htr : transitionBridge s.activeBridge d.generation .completed =
        (.suspended, some ⟨d.generation, .completed⟩) := by
      rw [h.agrees.bridge]
      simp [Phase.bridge, transitionBridge, bridgeTransitionAllowed]
    rw [hw, htr] at hs
    simp only [Bool.false_eq_true, ↓reduceIte, Option.some.injEq] at hs
    subst hs
    obtain ⟨hfresh, hle⟩ := h.history.generation d.generation false rfl
    refine ⟨.granted d.generation d.thread, ⟨rfl, h.agrees.op, rfl, h.agrees.launcher,
      h.agrees.control, fun hf => ?_, fun hf => ?_, h.agrees.callback⟩, h.scopes,
      (by rintro (he | he) <;> cases he), by rintro ⟨⟩, ?_, ⟨fun g hg => ?_, ?_, fun g => ?_⟩,
      ⟨?_, ?_, ?_⟩, h.teardowns⟩
    · rcases h.agrees.started hf with he | he <;> cases he
    · rcases h.agrees.finalized hf with he | he <;> cases he
    · refine h.arbitrated.frame rfl rfl rfl rfl id (fun g hg => ?_) (fun _ _ => rfl) (fun _ => id)
        (fun _ => id) fun _ hq => absurd hq.atRest (by rintro ⟨⟩)
      by_cases he : g = d.generation
      · rw [he]
        exact Function.update_self _ _ _
      · rw [← hg]
        exact Function.update_of_ne he _ _
    · by_cases he : g = d.generation
      · exact he ▸ hle
      · exact h.history.won_le g (by simpa [Function.update_of_ne he] using hg)
    · rintro g c ⟨⟩
      exact ⟨Function.update_self _ _ _, hle⟩
    · have hr := h.history.resumes g
      by_cases he : g = d.generation
      · subst he
        show s.resumes _ = _
        rw [hr, hfresh]
        simp [Phase.pending]
      · have hne : some d.generation ≠ some g := by simpa using Ne.symm he
        simp only [hr, Function.update_of_ne he, Phase.pending]
        simp [hne]
    · rintro _ ⟨⟩
      exact h.engaged.abandoner d hd
    · rintro _ c ⟨⟩
      exact h.engaged.frames d c hd
    · rintro _ ⟨⟩
      exact h.engaged.place d hd
  · subst hph
    have htr : transitionBridge s.activeBridge d.generation .completed =
        (.abandoned, some ⟨d.generation, .abandoned⟩) := by
      rw [h.agrees.bridge]
      simp [Phase.bridge, transitionBridge, bridgeTransitionAllowed]
    rw [hw, htr] at hs
    simp only [Bool.false_eq_true, ↓reduceIte, reduceCtorEq, Option.some.injEq] at hs
    subst hs
    refine ⟨.claimed d.generation signalled none, ⟨rfl, h.agrees.op, rfl, h.agrees.launcher,
      h.agrees.control, fun hf => ?_, fun hf => ?_, h.agrees.callback⟩, h.scopes,
      (by rintro (he | he) <;> cases he), by rintro ⟨⟩, ?_,
      h.history.keep rfl rfl rfl (fun g hg => hg) rfl,
      ⟨by rintro _ ⟨⟩, by rintro _ _ ⟨⟩, by rintro _ ⟨⟩⟩, h.teardowns⟩
    · rcases h.agrees.started hf with he | he <;> cases he
    · rcases h.agrees.finalized hf with he | he <;> cases he
    · exact h.arbitrated.frame rfl rfl rfl rfl id (fun _ => id) (fun _ _ => rfl) (fun _ => id)
        (fun _ => id) fun _ hq => ⟨rfl, hq.resumeCount⟩
  · rw [hw] at hs
    cases hs

theorem Inv.resume {s' : State} (h : Inv s ph) (hs : s.resume = some s') : ∃ ph', Inv s' ph' := by
  obtain ⟨d, hd, hs⟩ := Option.bind_eq_some_iff.mp hs
  rcases h.agrees.called hd with ⟨hw, _⟩ | ⟨_, hw, _⟩ | ⟨hw, hph⟩
  · rw [hw] at hs
    cases hs
  · rw [hw] at hs
    cases hs
  · subst hph
    -- the thread of the delivery is not the one that abandons
    have hpc : ∀ {x : Pc} (u), s.abandoner.thread = some u →
        Function.update s.pc d.thread x u = s.pc u := fun u hu => by
      refine Function.update_of_ne ?_ _ _
      rintro rfl
      exact h.engaged.abandoner d hd hu
    rw [hw, if_pos rfl] at hs
    split at hs
    · rename_i hst
      cases hs
      refine ⟨.completedInline d.thread d.generation, ⟨h.agrees.bridge, h.agrees.op, rfl,
        h.agrees.launcher, h.agrees.control.take (by rintro u q ⟨⟩), fun hf => ?_, fun hf => ?_,
        callback_update h.agrees.callback (by rintro ⟨⟩)⟩, h.scopes.keep (by rw [hst]; rfl),
        (by rintro (he | he) <;> cases he), by rintro ⟨⟩, ?_,
        h.history.keep rfl rfl rfl (fun g hg => hg) rfl,
        ⟨by rintro _ ⟨⟩, by rintro _ _ ⟨⟩, by rintro _ ⟨⟩⟩, h.teardowns⟩
      · rcases h.agrees.started hf with he | he <;> cases he
      · rcases h.agrees.finalized hf with he | he <;> cases he
      · exact h.arbitrated.frame rfl rfl rfl rfl id (fun _ => id) hpc (fun _ => id) (fun _ => id)
          fun _ hq => absurd hq.atRest (by rintro ⟨⟩)
    · split at hs
      · rename_i hout
        cases hs
        refine ⟨.resumed d.thread d.generation, ⟨h.agrees.bridge, h.agrees.op, rfl,
          h.agrees.launcher, h.agrees.control.take (by rintro u q ⟨⟩), fun hf => ?_, fun hf => ?_,
          callback_update h.agrees.callback (by rintro ⟨⟩)⟩,
          h.scopes.enter (by rw [hout]; rfl) rfl,
          (by rintro (he | he) <;> cases he), by rintro ⟨⟩, ?_, ?_,
          ⟨by rintro _ ⟨⟩, by rintro _ _ ⟨⟩, by rintro _ ⟨⟩⟩, h.teardowns⟩
        · rcases h.agrees.started hf with he | he <;> cases he
        · rcases h.agrees.finalized hf with he | he <;> cases he
        · exact h.arbitrated.frame rfl rfl rfl rfl id (fun _ => id) hpc (fun _ => id)
            (fun _ _ => Nat.succ_pos _) fun _ hq => absurd hq.atRest (by rintro ⟨⟩)
        · have hr := h.history.resumeFor (t := d.thread) rfl rfl
          exact ⟨hr.won_le, hr.generation, hr.resumes⟩
      · cases hs

/-! ## The abandonment -/

/-- Only the abandoner moves. -/
theorem Inv.arbitrates {a : Abandoner} (h : Inv s ph) (ha : a.thread = s.abandoner.thread)
    (harb : Arbitrated { s with abandoner := a } ph) : Inv { s with abandoner := a } ph :=
  ⟨⟨h.agrees.bridge, h.agrees.op, h.agrees.delivery, h.agrees.launcher, h.agrees.control,
    h.agrees.started, h.agrees.finalized, h.agrees.callback⟩, h.scopes, h.asleep, h.gone, harb,
    h.history.keep rfl rfl rfl (fun _ hg => hg) rfl,
    ⟨by rw [show ({ s with abandoner := a } : State).abandoner.thread = _ from ha]
        exact h.engaged.abandoner, h.engaged.frames, h.engaged.place⟩, h.teardowns⟩

theorem Inv.abandon {s' : State} (h : Inv s ph) (hfree : s.free t = true)
    (hsup : (Label.abandon t).Supported s) (hs : s.abandon t = some s') : ∃ ph', Inv s' ph' := by
  obtain ⟨hl, hpc⟩ := hsup
  obtain ⟨_, hdel, _, _⟩ := free_spec hfree
  unfold State.abandon at hs
  split at hs
  · rename_i hidle
    obtain ⟨hab, hde, halive⟩ := h.of_idle hidle
    have hengaged : ∀ d, s.delivery = some d → some t ≠ some d.thread := by
      rintro d hd he
      cases he
      exact hdel d hd rfl
    split at hs
    · rename_i hst
      cases hs
      refine ⟨ph, ⟨h.agrees.bridge, h.agrees.op, h.agrees.delivery, h.agrees.launcher,
        h.agrees.control, h.agrees.started, h.agrees.finalized, h.agrees.callback⟩, h.scopes,
        h.asleep, h.gone, ?_, h.history.keep rfl rfl rfl (fun _ hg => hg) rfl,
        ⟨hengaged, h.engaged.frames, h.engaged.place⟩, h.teardowns⟩
      refine (arbitrated_announced (by rfl)).mpr ⟨⟨rfl, hde, halive, hl⟩, fun hsc => ?_⟩
      -- no bridge is open while the coroutine or the callback runs
      rcases hpc with hpc | hpc | hpc
      · rw [show (State.pc _ t) = .outside from hpc] at hsc
        cases hsc
      · rw [Phase.of_body (h.agrees.control.of_active hpc rfl)]
        rfl
      · rcases h.agrees.finalized (h.agrees.callback t hpc) with hph | hph <;> rw [hph] <;> rfl
    · rename_i hst
      cases hs
      have hph : ph = .unstarted := by
        rcases h.agrees.started (by simpa using hst) with hph | hph
        · exact hph
        · exact absurd halive (h.gone hph)
      subst hph
      refine ⟨.unstarted, ⟨h.agrees.bridge, h.agrees.op, h.agrees.delivery, h.agrees.launcher,
        h.agrees.control, h.agrees.started, h.agrees.finalized, h.agrees.callback⟩, h.scopes,
        h.asleep, by rintro ⟨⟩, ?_, h.history.keep rfl rfl rfl (fun _ hg => hg) rfl,
        ⟨by rintro d hd ⟨⟩, ?_, h.engaged.place⟩, ?_⟩
      · exact (arbitrated_ended (by rfl)).mpr ⟨by rintro ⟨⟩, hl, rfl, h.asleep (.inl rfl)⟩
      · rintro d c hd ⟨⟩
        exact hdel d hd rfl
      · show s.teardowns + 1 = 1
        rw [h.teardowns, if_pos halive]
  · cases hs

theorem Undecided.moved (h : Undecided s) (a : Abandoner) :
    Undecided { s with abandoner := a } :=
  ⟨h.abandoning, h.deferredDestroy, h.alive, h.launcher⟩

theorem Inv.undecided {a : Abandoner} (h : Inv s ph) (hab : s.abandoner = a)
    (ha : a.thread.isSome = true) : Undecided s := by
  subst hab
  rcases h.arbitrated.cases with h' | ⟨_, h'⟩ | h' | h'
  · rw [h'.1] at ha
    cases ha
  · exact h'
  · rw [h'.1] at ha
    cases ha
  · rw [h'.1] at ha
    cases ha

theorem Inv.sealed (h : Inv s ph)
    (hab : s.abandoner = .counting t ∨ s.abandoner = .draining t) : ph.sealed = true := by
  have ha := h.arbitrated
  unfold Arbitrated at ha
  rcases hab with hab | hab <;> rw [hab] at ha <;> exact ha.2

theorem Inv.wonGate {gate : BridgeToken} (h : Inv s ph)
    (hab : s.abandoner = .waiting t gate ∨ s.abandoner = .waitingFinalized t gate) :
    s.won gate.generation = true := by
  have ha := h.arbitrated
  unfold Arbitrated at ha
  rcases hab with hab | hab <;> rw [hab] at ha <;> exact ha.2

/-- A claim of its bridge takes a chain from one phase to the other. -/
structure Seals (ph ph' : Phase) : Prop where
  sealed : ph'.sealed = true
  op : ph'.op = ph.op
  delivery : ph'.delivery = ph.delivery
  launcher : ph'.launcher = none
  driver : ph'.driver = ph.driver
  generation : ph'.generation = ph.generation
  pending : ph'.pending = ph.pending
  started : (ph ≠ .unstarted ∧ ph ≠ .gone) ∧ ph' ≠ .unstarted ∧ ph' ≠ .gone
  finalized : ph ≠ .finalized

/-- What a claim of a bridge finds. -/
theorem Phase.claims (ph : Phase) (gate : BridgeToken) :
    (transitionBridge ph.bridge gate.generation .abandoned = (.inactive, ph.bridge)) ∨
    (transitionBridge ph.bridge gate.generation .abandoned = (.completed, ph.bridge) ∧
      ph.generation = some (gate.generation, true)) ∨
    ∃ (prior : BridgeState) (ph' : Phase), prior ≠ .inactive ∧ prior ≠ .completed ∧
      transitionBridge ph.bridge gate.generation .abandoned = (prior, ph'.bridge) ∧
      Seals ph ph' := by
  have hother : ∀ g st, ph.bridge = some ⟨g, st⟩ → g ≠ gate.generation →
      transitionBridge ph.bridge gate.generation .abandoned = (.inactive, ph.bridge) := by
    intro g st hb hg
    rw [hb]
    simp [transitionBridge, hg]
  -- only the bridge of the gate can be claimed, and one that completed cannot
  cases ph with
  | unstarted | launching t | running t passing | finalized | gone => exact .inl rfl
  | published t g c =>
    by_cases hg : g = gate.generation
    · refine .inr (.inr ⟨if c then .abandoned else .starting, .published t g true, ?_, ?_, ?_,
        ⟨rfl, rfl, rfl, rfl, rfl, rfl, rfl, by simp, by simp⟩⟩) <;>
        cases c <;> simp [transitionBridge, Phase.bridge, bridgeTransitionAllowed, hg]
    · exact .inl (hother g _ rfl hg)
  | connecting t g c =>
    by_cases hg : g = gate.generation
    · refine .inr (.inr ⟨if c then .abandoned else .starting, .connecting t g true, ?_, ?_, ?_,
        ⟨rfl, rfl, rfl, rfl, rfl, rfl, rfl, by simp, by simp⟩⟩) <;>
        cases c <;> simp [transitionBridge, Phase.bridge, bridgeTransitionAllowed, hg]
    · exact .inl (hother g _ rfl hg)
  | connected t g c =>
    by_cases hg : g = gate.generation
    · refine .inr (.inr ⟨if c then .abandoned else .starting, .connected t g true, ?_, ?_, ?_,
        ⟨rfl, rfl, rfl, rfl, rfl, rfl, rfl, by simp, by simp⟩⟩) <;>
        cases c <;> simp [transitionBridge, Phase.bridge, bridgeTransitionAllowed, hg]
    · exact .inl (hother g _ rfl hg)
  | parked g call =>
    by_cases hg : g = gate.generation
    · refine .inr (.inr ⟨.suspended, .claimed g call.isSome call, by simp, by simp, ?_,
        ⟨rfl, rfl, rfl, rfl, rfl, rfl, rfl, by simp, by simp⟩⟩)
      simp [transitionBridge, Phase.bridge, bridgeTransitionAllowed, hg]
    · exact .inl (hother g _ rfl hg)
  | claimed g signalled call =>
    by_cases hg : g = gate.generation
    · refine .inr (.inr ⟨.abandoned, .claimed g signalled call, by simp, by simp, ?_,
        ⟨rfl, rfl, rfl, rfl, rfl, rfl, rfl, by simp, by simp⟩⟩)
      simp [transitionBridge, Phase.bridge, bridgeTransitionAllowed, hg]
    · exact .inl (hother g _ rfl hg)
  | granted g t | completedInline t g | resumed t g =>
    by_cases hg : g = gate.generation
    · refine .inr (.inl ⟨?_, by rw [Phase.generation, hg]⟩)
      simp [transitionBridge, Phase.bridge, bridgeTransitionAllowed, hg]
    · exact .inl (hother g _ rfl hg)

theorem Inv.claiming {gate : BridgeToken} {s' : State} (h : Inv s ph)
    (hab : s.abandoner = .claiming t gate) (hs : s.arbitrate = some s') : ∃ ph', Inv s' ph' := by
  have hund := h.undecided hab rfl
  unfold State.arbitrate at hs
  simp only [hab] at hs
  rcases ph.claims gate with htr | ⟨htr, hgen⟩ | ⟨prior, ph', hpi, hpc, htr, hseals⟩
  · rw [← h.agrees.bridge] at htr
    rw [htr] at hs
    cases hs
    exact ⟨ph, h.arbitrates (by rw [hab]; rfl)
      ⟨hund.abandoning, hund.deferredDestroy, hund.alive, hund.launcher⟩⟩
  · rw [← h.agrees.bridge] at htr
    rw [htr] at hs
    cases hs
    exact ⟨ph, h.arbitrates (by rw [hab]; rfl)
      ⟨⟨hund.abandoning, hund.deferredDestroy, hund.alive, hund.launcher⟩,
        (h.history.generation _ true hgen).1⟩⟩
  · rw [← h.agrees.bridge] at htr
    rw [htr] at hs
    have hs' : s' = { s with activeBridge := ph'.bridge, abandoner := .draining t } := by
      cases prior with
      | inactive => exact absurd rfl hpi
      | completed => exact absurd rfl hpc
      | starting | suspended | abandoned =>
        cases hs
        rfl
    subst hs'
    obtain ⟨⟨hnu, hng⟩, hnu', hng'⟩ := hseals.started
    refine ⟨ph', ⟨rfl, h.agrees.op.trans hseals.op.symm,
      h.agrees.delivery.trans hseals.delivery.symm, hund.launcher.trans hseals.launcher.symm, ?_, fun hf => ?_, fun hf => ?_,
      h.agrees.callback⟩, h.scopes, ?_, fun he => absurd he hng',
      ⟨⟨hund.abandoning, hund.deferredDestroy, hund.alive, hund.launcher⟩, hseals.sealed⟩,
      h.history.keep rfl rfl rfl (fun x hx => hseals.generation ▸ hx) hseals.pending,
      ⟨?_, h.engaged.frames, h.engaged.place⟩, h.teardowns⟩
    · rw [hseals.driver]
      exact h.agrees.control
    · rcases h.agrees.started hf with he | he
      · exact absurd he hnu
      · exact absurd he hng
    · rcases h.agrees.finalized hf with he | he
      · exact absurd he hseals.finalized
      · exact absurd he hng
    · rintro (he | he)
      · exact absurd he hnu'
      · rw [hseals.launcher] at he
        cases he
    · have he := h.engaged.abandoner
      rwa [hab] at he

/-- On the stack of a resume the destruction is left to the last resume. -/
theorem Inv.announced {s' : State} (h : Inv s ph) (hab : s.abandoner = .announced t)
    (hs : s.arbitrate = some s') : ∃ ph', Inv s' ph' := by
  have hund := h.undecided hab rfl
  unfold State.arbitrate at hs
  simp only [hab] at hs
  split at hs
  · rename_i hsc
    cases hs
    have hsealed := ((arbitrated_announced hab).mp h.arbitrated).2 hsc
    refine ⟨ph, ⟨h.agrees.bridge, h.agrees.op, h.agrees.delivery, h.agrees.launcher,
      h.agrees.control, h.agrees.started, h.agrees.finalized, h.agrees.callback⟩, h.scopes,
      h.asleep, h.gone, ?_, h.history.keep rfl rfl rfl (fun _ hg => hg) rfl,
      ⟨by rintro d hd ⟨⟩, h.engaged.frames, h.engaged.place⟩, h.teardowns⟩
    exact (arbitrated_deferred (by rfl)).mpr ⟨hund.abandoning, rfl, hund.launcher, hsealed,
      fun _ => h.scopes.pos hsc, fun hf => absurd hund.alive hf⟩
  · cases hs
    exact ⟨ph, h.arbitrates (by rw [hab]; rfl) (hund.moved _)⟩

/-- No resume is left, and none can come: the chain is at rest. -/
theorem Inv.draining {s' : State} (h : Inv s ph) (hab : s.abandoner = .draining t)
    (hs : s.arbitrate = some s') : ∃ ph', Inv s' ph' := by
  have hund := h.undecided hab rfl
  have hsealed := h.sealed (.inr hab)
  unfold State.arbitrate at hs
  simp only [hab, Option.some.injEq] at hs
  subst hs
  split
  · rename_i hzero
    have hrest := h.agrees.atRest hsealed hund.launcher (hzero ▸ h.scopes).of_zero
    refine ⟨ph, ⟨h.agrees.bridge, h.agrees.op, h.agrees.delivery, h.agrees.launcher,
      h.agrees.control, h.agrees.started, h.agrees.finalized, h.agrees.callback⟩, h.scopes,
      h.asleep, fun _ => by rintro ⟨⟩, ?_, h.history.keep rfl rfl rfl (fun _ hg => hg) rfl,
      ⟨by rintro d hd ⟨⟩, ?_, h.engaged.place⟩, ?_⟩
    · exact (arbitrated_ended (by rfl)).mpr ⟨by rintro ⟨⟩, hund.launcher, hrest, hzero⟩
    · rintro d c hd ⟨⟩
      exact h.engaged.abandoner d hd (by rw [hab]; rfl)
    · show s.teardowns + 1 = 1
      rw [h.teardowns, if_pos hund.alive]
  · exact ⟨ph, h⟩

theorem Inv.arbitrate {s' : State} (h : Inv s ph) (hs : s.arbitrate = some s') :
    ∃ ph', Inv s' ph' := by
  cases hab : s.abandoner with
  | idle | deferred | ended =>
    unfold State.arbitrate at hs
    simp only [hab] at hs
    cases hs
  | announced t => exact h.announced hab hs
  | checking t =>
    have hund := h.undecided hab rfl
    unfold State.arbitrate at hs
    simp only [hab, Option.some.injEq] at hs
    subst hs
    split
    · rename_i hfin
      refine ⟨ph, h.arbitrates (by rw [hab]; rfl) ⟨hund.moved _, ?_⟩⟩
      rcases h.agrees.finalized hfin with hph | hph <;> rw [hph] <;> rfl
    · exact ⟨ph, h.arbitrates (by rw [hab]; rfl) (hund.moved _)⟩
  | loading t =>
    have hund := h.undecided hab rfl
    unfold State.arbitrate at hs
    simp only [hab, Option.some.injEq] at hs
    cases hb : s.activeBridge with
    | none =>
      rw [show s.activeBridge.elim (Abandoner.counting t) (.claiming t) = .counting t by
        rw [hb]; rfl] at hs
      subst hs
      refine ⟨ph, h.arbitrates (by rw [hab]; rfl) ⟨hund.moved _, ?_⟩⟩
      -- a phase without a bridge is sealed
      have hbr := h.agrees.bridge
      rw [hb] at hbr
      cases ph <;> first | rfl | cases hbr
    | some gate =>
      rw [show s.activeBridge.elim (Abandoner.counting t) (.claiming t) = .claiming t gate by
        rw [hb]; rfl] at hs
      subst hs
      exact ⟨ph, h.arbitrates (by rw [hab]; rfl) (hund.moved _)⟩
  | claiming t gate => exact h.claiming hab hs
  | waiting t gate =>
    have hund := h.undecided hab rfl
    unfold State.arbitrate at hs
    simp only [hab, Option.some.injEq] at hs
    subst hs
    split
    · exact ⟨ph, h.arbitrates (by rw [hab]; rfl) ⟨hund.moved _, h.wonGate (.inl hab)⟩⟩
    · exact ⟨ph, h.arbitrates (by rw [hab]; rfl) (hund.moved _)⟩
  | waitingFinalized t gate =>
    have hund := h.undecided hab rfl
    unfold State.arbitrate at hs
    simp only [hab, Option.some.injEq] at hs
    subst hs
    split
    · exact ⟨ph, h.arbitrates (by rw [hab]; rfl) (hund.moved _)⟩
    · exact ⟨ph, h.arbitrates (by rw [hab]; rfl) ⟨hund.moved _, h.wonGate (.inr hab)⟩⟩
  | counting t =>
    have hund := h.undecided hab rfl
    have hsealed := h.sealed (.inl hab)
    unfold State.arbitrate at hs
    simp only [hab, Option.some.injEq] at hs
    subst hs
    split
    · exact ⟨ph, h.arbitrates (by rw [hab]; rfl) ⟨hund.moved _, hsealed⟩⟩
    · exact ⟨ph, h.arbitrates (by rw [hab]; rfl) (hund.moved _)⟩
  | draining t => exact h.draining hab hs

/-! ## The destruction -/

theorem Inv.quiet (h : Inv s ph) (hf : s.frames ≠ .alive) :
    s.launcher = none ∧ Quiet s ph ∧ (s.abandoner = .deferred ∨ s.abandoner = .ended) := by
  rcases h.arbitrated.cases with ha | ⟨_, ha⟩ | ha | ha
  · exact absurd ha.2.2.2 hf
  · exact absurd ha.alive hf
  · exact ⟨ha.2.2.2.1, ha.2.2.2.2.2.2 hf, .inl ha.1⟩
  · exact ⟨ha.2.2.1, ha.2.2.2, .inr ha.1⟩

/-- The steps of the destruction. -/
theorem Inv.destroys {s' : State} (h : Inv s ph) (hf : s.frames ≠ .alive) (hf' : s'.frames ≠ .alive)
    (hagrees : Agrees s' ph') (hrest : ph'.atRest = true)
    (hpc : s'.pc = s.pc) (hcount : s'.resumeCount = s.resumeCount)
    (hab : s'.abandoner = s.abandoner) (habn : s'.abandoning = s.abandoning)
    (hde : s'.deferredDestroy = s.deferredDestroy) (hsl : s'.launcher = s.launcher)
    (hseal : ph.sealed = true → ph'.sealed = true) (hhist : History s' ph') (heng : Engaged s')
    (htd : s'.teardowns = s.teardowns) : Inv s' ph' := by
  obtain ⟨hlau, hq, habs⟩ := h.quiet hf
  have hzero : s'.resumeCount = 0 := hcount.trans hq.resumeCount
  refine ⟨hagrees, by rw [hpc, hcount]; exact h.scopes, fun _ => hzero, fun _ => hf', ?_, hhist,
    heng, ?_⟩
  · rcases habs with hd | hd
    · have ha := (arbitrated_deferred hd).mp h.arbitrated
      refine (arbitrated_deferred (hab.trans hd)).mpr ⟨habn.trans ha.1, hde.trans ha.2.1,
        hsl.trans hlau, hseal ha.2.2.2.1, fun he => absurd he hf', fun _ => ⟨hrest, hzero⟩⟩
    · exact (arbitrated_ended (hab.trans hd)).mpr ⟨hf', hsl.trans hlau, hrest, hzero⟩
  · rw [htd, h.teardowns, if_neg hf, if_neg hf']

theorem Inv.claim {s' : State} (h : Inv s ph) (hs : s.claim = some s') : ∃ ph', Inv s' ph' := by
  unfold State.claim at hs
  split at hs
  · rename_i t hfr
    have hf : s.frames ≠ .alive := by
      rw [hfr]
      rintro ⟨⟩
    obtain ⟨hlau, hq, habs⟩ := h.quiet hf
    -- the bridge was claimed before, or there is none
    have hsame : s.op.elim s.activeBridge (fun op =>
        (transitionBridge s.activeBridge op.generation .abandoned).2) = s.activeBridge := by
      have hrest := hq.atRest
      rw [h.agrees.op, h.agrees.bridge]
      cases ph with
      | unstarted | finalized | gone => rfl
      | claimed g signalled call =>
        simp [Phase.op, Phase.bridge, transitionBridge, bridgeTransitionAllowed]
      | _ => cases hrest
    rw [hsame] at hs
    cases hs
    refine ⟨ph, h.destroys hf (by rintro ⟨⟩) ⟨h.agrees.bridge, h.agrees.op, h.agrees.delivery,
      h.agrees.launcher, h.agrees.control, h.agrees.started, h.agrees.finalized, h.agrees.callback⟩
      hq.atRest rfl rfl rfl rfl rfl rfl id
      (h.history.keep rfl rfl rfl (fun _ hg => hg) rfl)
      ⟨h.engaged.abandoner, ?_, h.engaged.place⟩ rfl⟩
    rintro d c hd ⟨⟩
    exact h.engaged.frames d false hd hfr
  · cases hs

theorem Inv.destroy {s' : State} (h : Inv s ph) (hs : s.destroy = some s') : ∃ ph', Inv s' ph' := by
  unfold State.destroy at hs
  split at hs
  · rename_i t hfr
    split at hs
    · rename_i hall
      cases hs
      have hf : s.frames ≠ .alive := by
        rw [hfr]
        rintro ⟨⟩
      obtain ⟨hlau, hq, habs⟩ := h.quiet hf
      have hnone : s.delivery = none := by
        cases hd : s.delivery with
        | none => rfl
        | some d =>
          rw [hd] at hall
          have ht : d.thread = t := by simpa using hall
          exact absurd (by rw [hfr, ht]) (h.engaged.frames d true hd)
      refine ⟨.gone, h.destroys hf (by rintro ⟨⟩) ⟨rfl, rfl, hnone, hlau, ?_, fun _ => .inr rfl,
        fun _ => .inr rfl, h.agrees.callback⟩ rfl rfl rfl rfl rfl rfl rfl (fun _ => rfl)
        ⟨h.history.won_le, by rintro g c ⟨⟩, fun g => ?_⟩
        ⟨?_, ?_, ?_⟩ rfl⟩
      · have hrest := hq.atRest
        have hc := h.agrees.control
        cases ph with
        | unstarted | finalized | gone | claimed g signalled call => exact hc
        | _ => cases hrest
      · have hrest := hq.atRest
        have hr := h.history.resumes g
        cases ph with
        | unstarted | finalized | gone | claimed g signalled call => exact hr
        | _ => cases hrest
      · intro d hd
        rw [show s.delivery = some d from hd] at hnone
        cases hnone
      · intro d c hd
        rw [show s.delivery = some d from hd] at hnone
        cases hnone
      · intro d hd
        rw [show s.delivery = some d from hd] at hnone
        cases hnone
    · cases hs
  · cases hs

/-! ## Whole runs -/

theorem Inv.step {l : Label} {s' : State} (h : Inv s ph) (hs : s.supportedStep l = some s') :
    ∃ ph', Inv s' ph' := by
  unfold State.supportedStep at hs
  split at hs
  · rename_i hsup
    have hfree : ∀ {t : ThreadId} {x : Option State}, (if s.free t then x else none) = some s' →
        s.free t = true ∧ x = some s' := by
      intro t x hx
      split at hx
      · rename_i hf
        exact ⟨hf, hx⟩
      · cases hx
    cases l with
    | launch t => exact h.launch (hfree hs).2
    | credit => exact h.credit hs
    | signal t => exact h.signal (hfree hs).1 (hfree hs).2
    | complete => exact h.complete hs
    | resume => exact h.resume hs
    | abandon t => exact h.abandon (hfree hs).1 hsup (hfree hs).2
    | arbitrate => exact h.arbitrate hs
    | claim => exact h.claim hs
    | destroy => exact h.destroy hs
    | publish t | checkAbandoning t | connect t throws | suspend t | startReturns t | awaitResume t
    | pass t | takePending t | finish t | callbackReturns t | unwind t =>
      exact h.advance (hfree hs).1 (hfree hs).2
  · cases hs

theorem inv_of_reachable (h : Reachable State.supportedStep State.IsInitial s) :
    ∃ ph, Inv s ph := by
  refine h.preserves (P := fun s => ∃ ph, Inv s ph) ?_ (fun s l s' ⟨ph, hi⟩ hs => hi.step hs)
  rintro _ rfl
  refine ⟨.unstarted, ⟨rfl, rfl, rfl, rfl, fun _ => rfl, fun _ => .inl rfl, by rintro ⟨⟩,
    by rintro t ⟨⟩⟩, Counted.zero fun _ => rfl, fun _ => rfl, by rintro ⟨⟩,
    (arbitrated_idle (by rfl)).mpr ⟨rfl, rfl, rfl⟩,
    ⟨by rintro g ⟨⟩, by rintro g c ⟨⟩, fun g => rfl⟩,
    ⟨by rintro d ⟨⟩, by rintro d c ⟨⟩, by rintro d ⟨⟩⟩, rfl⟩

/-- What every interleaving of supported steps has. -/
structure Safe (s : State) : Prop where
  once : s.teardowns = if s.frames = .alive then 0 else 1
  /-- One thread at most executes the coroutine. -/
  single : ∀ t u, (s.pc t).passive = false → (s.pc u).passive = false → t = u
  /-- The frames outlive every resume and every resume that was granted. -/
  quiet : s.frames ≠ .alive →
    (∀ t, s.pc t = .outside) ∧ s.launcher = none ∧ ∀ d, s.delivery = some d → d.won = false
  resumed_once : ∀ g, s.resumes g ≤ 1
  /-- A bridge that completed before it was claimed has resumed the chain. -/
  delivered : s.frames ≠ .alive → ∀ g, s.won g = true → s.resumes g = 1
  /-- `publish_bridge` does not terminate. -/
  unpublished : ∀ t, s.pc t = .body → s.activeBridge = none

theorem Pc.outside_of_scoped {p : Pc} (h : p.scoped = false) : p = .outside := by
  cases p <;> first | rfl | cases h

theorem frames_outlive_resumes (h : Reachable State.supportedStep State.IsInitial s) : Safe s := by
  obtain ⟨ph, hi⟩ := inv_of_reachable h
  refine ⟨hi.teardowns, fun t u ht hu => ?_, fun hf => ?_, fun g => ?_, fun hf g hw => ?_,
    fun t ht => ?_⟩
  · have hdt := hi.agrees.control.of_active rfl ht
    have hdu := hi.agrees.control.of_active rfl hu
    rw [hdt] at hdu
    cases hdu
    rfl
  · obtain ⟨hl, hq, -⟩ := hi.quiet hf
    refine ⟨fun t => Pc.outside_of_scoped ((hq.resumeCount ▸ hi.scopes).of_zero t), hl,
      fun d hd => ?_⟩
    rcases hi.agrees.called hd with ⟨hw, _⟩ | ⟨_, hw, _⟩ | ⟨_, hph⟩
    · exact hw
    · exact hw
    · have hrest := hq.atRest
      rw [hph] at hrest
      cases hrest
  · rw [hi.history.resumes g]
    split
    · exact Nat.le_refl 1
    · exact Nat.zero_le 1
  · obtain ⟨-, hq, -⟩ := hi.quiet hf
    have hpending : ph.pending = none := by
      have hrest := hq.atRest
      cases ph with
      | unstarted | finalized | gone | claimed g signalled call => rfl
      | _ => cases hrest
    rw [hi.history.resumes g, hpending, if_pos ⟨hw, by rintro ⟨⟩⟩]
  · rw [hi.agrees.bridge, Phase.of_body (hi.agrees.control.of_active ht rfl)]
    rfl

/-- A thread outside abandons the chain while a delivery on another one has won its bridge. It
waits for the resume, and the frames are destroyed after it. -/
theorem frames_outlive_resumes_lost_claim : ∃ s, Reachable State.supportedStep State.IsInitial s ∧
    s.frames = .destroyed ∧ s.won 1 = true ∧ s.abandoner = .ended ∧ Safe s := by
  obtain ⟨s, hs, hf, hw, ha⟩ : ∃ s, run State.supportedStep {}
      [.launch 0, .credit, .publish 0, .checkAbandoning 0, .connect 0 false, .suspend 0,
        .startReturns 0, .unwind 0, .signal 1, .complete, .abandon 2, .arbitrate, .arbitrate,
        .arbitrate, .arbitrate, .arbitrate, .resume, .arbitrate, .awaitResume 1, .arbitrate,
        .finish 1, .arbitrate, .arbitrate, .callbackReturns 1, .unwind 1, .arbitrate, .claim,
        .destroy] = some s ∧
      s.frames = .destroyed ∧ s.won 1 = true ∧ s.abandoner = .ended := ⟨_, rfl, rfl, rfl, rfl⟩
  have hr : Reachable State.supportedStep State.IsInitial s := ⟨_, rfl, _, hs⟩
  exact ⟨s, hr, hf, hw, ha, frames_outlive_resumes hr⟩

/-! ## An abandonment is over after a few steps -/

/-- No thread is in the chain, and no delivery is on its way. -/
structure Settled (s : State) : Prop where
  outside : ∀ t, s.pc t = .outside
  delivery : s.delivery = none

/-- The frames are destroyed after so many steps of the abandonment. -/
def EndsIn (s : State) (n : ℕ) : Prop :=
  ∃ ls : List Label, ls.length ≤ n ∧ (∀ l ∈ ls, l = .arbitrate ∨ l = .claim ∨ l = .destroy) ∧
    ∃ s', run State.supportedStep s ls = some s' ∧ s'.frames = .destroyed

theorem EndsIn.step {n : ℕ} {l : Label} {s' : State} (h : EndsIn s' n)
    (hl : l = .arbitrate ∨ l = .claim ∨ l = .destroy) (hs : s.step l = some s') :
    EndsIn s (n + 1) := by
  obtain ⟨ls, hlen, hls, u, hu, hf⟩ := h
  refine ⟨l :: ls, Nat.succ_le_succ hlen, fun m hm => ?_, u, ?_, hf⟩
  · rcases List.mem_cons.mp hm with rfl | hm
    · exact hl
    · exact hls m hm
  · have hsup : s.supportedStep l = some s' := by
      rw [State.supportedStep, if_pos (by rcases hl with rfl | rfl | rfl <;> trivial), hs]
    rw [run, hsup, Option.bind_some, hu]

theorem EndsIn.done (hf : s.frames = .destroyed) : EndsIn s 0 :=
  ⟨[], Nat.le_refl 0, by rintro l ⟨⟩, s, rfl, hf⟩

theorem EndsIn.mono {n m : ℕ} (h : EndsIn s n) (hnm : n ≤ m) : EndsIn s m := by
  obtain ⟨ls, hlen, rest⟩ := h
  exact ⟨ls, Nat.le_trans hlen hnm, rest⟩

theorem Inv.settled (h : Inv s ph) (hq : Settled s) :
    s.resumeCount = 0 ∧
      (ph.bridge = none ∨ (∃ g, ph = .parked g none) ∨
        ∃ g signalled, ph = .claimed g signalled none) := by
  refine ⟨h.scopes.eq_zero fun t => by rw [hq.outside t]; rfl, ?_⟩
  have hd := h.agrees.delivery
  rw [hq.delivery] at hd
  have hdriver : ∀ u q, ph.driver = some (u, q) → q = .outside := by
    intro u q hdr
    have hc := h.agrees.control
    rw [hdr] at hc
    rw [← hc.1, hq.outside u]
  cases ph with
  | unstarted | launching t | finalized | gone | running t passing => exact .inl rfl
  | published t g c | connecting t g c | connected t g c | completedInline t g | resumed t g =>
    cases hdriver _ _ rfl
  | parked g call =>
    cases call with
    | none => exact .inr (.inl ⟨g, rfl⟩)
    | some u => cases hd
  | claimed g signalled call =>
    cases call with
    | none => exact .inr (.inr ⟨g, signalled, rfl⟩)
    | some u => cases hd
  | granted g u => cases hd

theorem ends_claimed (hq : Settled s) (hf : s.frames = .destroying t true) : EndsIn s 1 := by
  have hs : s.step .destroy =
      some { s with frames := .destroyed, op := none, activeBridge := none } := by
    simp only [State.step, State.destroy, hf, hq.delivery, Option.all_none, if_true]
  exact (EndsIn.done (s := { s with frames := .destroyed, op := none, activeBridge := none })
    rfl).step (.inr (.inr rfl)) hs

theorem ends_destroying (hq : Settled s) (hf : s.frames = .destroying t false) : EndsIn s 2 := by
  have hs : ∃ b, s.step .claim =
      some { s with frames := .destroying t true, activeBridge := b } := by
    simp only [State.step, State.claim, hf]
    exact ⟨_, rfl⟩
  obtain ⟨b, hs⟩ := hs
  exact (ends_claimed (s := { s with frames := .destroying t true, activeBridge := b })
    ⟨hq.outside, hq.delivery⟩ rfl).step (.inr (.inl rfl)) hs

theorem ends_draining (hq : Settled s) (hc : s.resumeCount = 0) (hab : s.abandoner = .draining t) :
    EndsIn s 3 := by
  have hs : s.step .arbitrate = some { s.teardown t with abandoner := .ended } := by
    simp only [State.step, State.arbitrate, hab, hc, if_true]
  exact (ends_destroying (s := { s.teardown t with abandoner := .ended })
    ⟨hq.outside, hq.delivery⟩ rfl).step (.inl rfl) hs

theorem ends_loading (hi : Inv s ph) (hq : Settled s) (hab : s.abandoner = .loading t) :
    EndsIn s 5 := by
  obtain ⟨hc, hb⟩ := hi.settled hq
  have hbr := hi.agrees.bridge
  rcases hb with hb | hb
  · rw [hb] at hbr
    have hs : s.step .arbitrate = some { s with abandoner := .counting t } := by
      simp only [State.step, State.arbitrate, hab, hbr, Option.elim_none]
    have hs' : ({ s with abandoner := .counting t } : State).step .arbitrate =
        some { s with abandoner := .draining t } := by
      simp only [State.step, State.arbitrate, hc, if_true]
    exact ((ends_draining (s := { s with abandoner := .draining t })
      ⟨hq.outside, hq.delivery⟩ hc rfl).step (.inl rfl) hs').step (.inl rfl) hs
  · -- the bridge is claimed, or was
    obtain ⟨g, st, hbridge, hst⟩ : ∃ g st, s.activeBridge = some ⟨g, st⟩ ∧
        (st = .suspended ∨ st = .abandoned) := by
      rcases hb with ⟨g, rfl⟩ | ⟨g, signalled, rfl⟩
      · exact ⟨g, _, hbr, .inl rfl⟩
      · exact ⟨g, _, hbr, .inr rfl⟩
    have hs : s.step .arbitrate = some { s with abandoner := .claiming t ⟨g, st⟩ } := by
      simp only [State.step, State.arbitrate, hab, hbridge, Option.elim_some]
    have hs' : ({ s with abandoner := .claiming t ⟨g, st⟩ } : State).step .arbitrate =
        some { s with abandoner := .draining t, activeBridge := some ⟨g, .abandoned⟩ } := by
      rcases hst with rfl | rfl <;>
        simp [State.step, State.arbitrate, hbridge, transitionBridge, bridgeTransitionAllowed]
    exact ((ends_draining (s := { s with
        abandoner := .draining t, activeBridge := some ⟨g, .abandoned⟩ })
      ⟨hq.outside, hq.delivery⟩ hc rfl).step (.inl rfl) hs').step (.inl rfl) hs

theorem ends_checking (hi : Inv s ph) (hq : Settled s) (hab : s.abandoner = .checking t) :
    EndsIn s 6 := by
  obtain ⟨hc, -⟩ := hi.settled hq
  cases hf : s.finalized with
  | true =>
    have hs : s.step .arbitrate = some { s with abandoner := .draining t } := by
      simp only [State.step, State.arbitrate, hab, hf, if_true]
    exact ((ends_draining (s := { s with abandoner := .draining t })
      ⟨hq.outside, hq.delivery⟩ hc rfl).step (.inl rfl) hs).mono (by omega)
  | false =>
    have hs : s.step .arbitrate = some { s with abandoner := .loading t } := by
      simp only [State.step, State.arbitrate, hab, hf, Bool.false_eq_true, if_false]
    obtain ⟨ph', hi'⟩ := hi.arbitrate hs
    exact (ends_loading hi' ⟨hq.outside, hq.delivery⟩ rfl).step (.inl rfl) hs

/-- From a step to `checking`. -/
theorem ends_to_checking (hi : Inv s ph) (hq : Settled s)
    (hs : s.step .arbitrate = some { s with abandoner := .checking t }) : EndsIn s 7 := by
  obtain ⟨ph', hi'⟩ := hi.arbitrate hs
  exact (ends_checking hi' ⟨hq.outside, hq.delivery⟩ rfl).step (.inl rfl) hs

theorem ends_waiting {gate : BridgeToken} (hi : Inv s ph) (hq : Settled s)
    (hab : s.abandoner = .waiting t gate) : EndsIn s 7 := by
  obtain ⟨-, hb⟩ := hi.settled hq
  have hwon := hi.wonGate (.inl hab)
  -- the bridge of the gate completed, so it is not the one of a chain at rest
  have hother : s.activeBridge.any (fun token => token.generation == gate.generation) = false := by
    rw [hi.agrees.bridge]
    rcases hb with hb | ⟨g, rfl⟩ | ⟨g, signalled, rfl⟩
    · rw [hb]
      rfl
    · have hg := (hi.history.generation g false rfl).1
      simp only [Phase.bridge, Option.any_some, beq_eq_false_iff_ne]
      rintro rfl
      rw [hwon] at hg
      cases hg
    · have hg := (hi.history.generation g false rfl).1
      simp only [Phase.bridge, Option.any_some, beq_eq_false_iff_ne]
      rintro rfl
      rw [hwon] at hg
      cases hg
  refine ends_to_checking hi hq (t := t) ?_
  simp only [State.step, State.arbitrate, hab, hother, Bool.false_eq_true, if_false]

/-- Once no thread is in the chain and no delivery on its way, an abandonment destroys the frames in
a few steps, without waiting for anything. -/
theorem abandonment_ends (h : Reachable State.supportedStep State.IsInitial s)
    (ha : s.abandoner ≠ .idle) (hout : ∀ t, s.pc t = .outside) (hd : s.delivery = none)
    (hf : s.frames ≠ .destroyed) : EndsIn s 8 := by
  obtain ⟨ph, hi⟩ := inv_of_reachable h
  have hq : Settled s := ⟨hout, hd⟩
  have hgone : s.frames ≠ .alive → EndsIn s 8 := fun halive => by
    cases hfr : s.frames with
    | alive => exact absurd hfr halive
    | destroyed => exact absurd hfr hf
    | destroying t claimed =>
      cases claimed with
      | true => exact (ends_claimed hq hfr).mono (by omega)
      | false => exact (ends_destroying hq hfr).mono (by omega)
  rcases hi.arbitrated.cases with ha' | ⟨hth, hund⟩ | ha' | ha'
  · exact absurd ha'.1 ha
  · obtain ⟨hc, hb⟩ := hi.settled hq
    cases hab : s.abandoner with
    | idle => exact absurd hab ha
    | announced t =>
      refine (ends_to_checking hi hq (t := t) ?_).mono (by omega)
      simp only [State.step, State.arbitrate, hab, hout t, Pc.scoped, Bool.false_eq_true, if_false]
    | checking t => exact (ends_checking hi hq hab).mono (by omega)
    | loading t => exact (ends_loading hi hq hab).mono (by omega)
    | claiming t gate =>
      rcases ph.claims gate with htr | ⟨htr, hgen⟩ | ⟨prior, ph', hpi, hpc, htr, hseals⟩
      · rw [← hi.agrees.bridge] at htr
        refine (ends_to_checking hi hq (t := t) ?_).mono (by omega)
        simp only [State.step, State.arbitrate, hab, htr]
      · rcases hb with hb | ⟨g, rfl⟩ | ⟨g, signalled, rfl⟩
        · rw [hb] at htr
          cases htr
        · cases hgen
        · cases hgen
      · rw [← hi.agrees.bridge] at htr
        have hs : s.step .arbitrate =
            some { s with activeBridge := ph'.bridge, abandoner := .draining t } := by
          simp only [State.step, State.arbitrate, hab, htr]
        exact ((ends_draining (s := { s with activeBridge := ph'.bridge, abandoner := .draining t })
          ⟨hout, hd⟩ hc rfl).step (.inl rfl) hs).mono (by omega)
    | waiting t gate => exact (ends_waiting hi hq hab).mono (by omega)
    | waitingFinalized t gate =>
      cases hfin : s.finalized with
      | true =>
        refine (ends_to_checking hi hq (t := t) ?_).mono (by omega)
        simp only [State.step, State.arbitrate, hab, hfin, if_true]
      | false =>
        have hs : s.step .arbitrate = some { s with abandoner := .waiting t gate } := by
          simp only [State.step, State.arbitrate, hab, hfin, Bool.false_eq_true, if_false]
        obtain ⟨ph', hi'⟩ := hi.arbitrate hs
        exact (ends_waiting hi' ⟨hout, hd⟩ rfl).step (.inl rfl) hs
    | counting t =>
      have hs : s.step .arbitrate = some { s with abandoner := .draining t } := by
        simp only [State.step, State.arbitrate, hab, hc, if_true]
      exact ((ends_draining (s := { s with abandoner := .draining t })
        ⟨hout, hd⟩ hc rfl).step (.inl rfl) hs).mono (by omega)
    | draining t => exact (ends_draining hq hc hab).mono (by omega)
    | deferred | ended =>
      rw [hab] at hth
      cases hth
  · refine hgone fun halive => ?_
    have hpos := ha'.2.2.2.2.2.1 halive
    have hc := (hi.settled hq).1
    omega
  · exact hgone ha'.2.1

/-- An abandonment of a chain that is suspended. -/
theorem abandonment_ends_parked : ∃ s, Reachable State.supportedStep State.IsInitial s ∧
    s.activeBridge = some ⟨1, .suspended⟩ ∧ s.abandoner = .announced 2 ∧ EndsIn s 8 := by
  obtain ⟨s, hs, hb, ha, hp, hd, hf⟩ : ∃ s, run State.supportedStep {}
      [.launch 0, .credit, .publish 0, .checkAbandoning 0, .connect 0 false, .suspend 0,
        .startReturns 0, .unwind 0, .abandon 2] = some s ∧ s.activeBridge = some ⟨1, .suspended⟩ ∧
      s.abandoner = .announced 2 ∧ (∀ t, s.pc t = .outside) ∧ s.delivery = none ∧
      s.frames = .alive := by
    refine ⟨_, rfl, rfl, rfl, fun t => ?_, rfl, rfl⟩
    cases t <;> rfl
  have hr : Reachable State.supportedStep State.IsInitial s := ⟨_, rfl, _, hs⟩
  exact ⟨s, hr, hb, ha, abandonment_ends hr (by rw [ha]; rintro ⟨⟩) hp hd (by rw [hf]; rintro ⟨⟩)⟩

/-! ## The abandonment that is not supported -/

/-- An abandonment inside of `start` claims no bridge: a delivery that comes before the destruction
resumes the chain that is being destroyed. -/
theorem abandoned_inside_start : ∃ s, Reachable State.step State.IsInitial s ∧
    s.frames ≠ .alive ∧ (∃ d, s.delivery = some d ∧ d.won = true) ∧
    (s.step .resume).isSome = true := by
  obtain ⟨s, hs, hf, hd, hr⟩ : ∃ s, run State.step {}
      [.launch 0, .credit, .publish 0, .checkAbandoning 0, .connect 0 false, .suspend 0, .abandon 0,
        .arbitrate, .signal 1, .complete, .startReturns 0, .unwind 0] = some s ∧
      s.frames = .destroying 0 false ∧ s.delivery = some ⟨1, 1, true⟩ ∧
      (s.step .resume).isSome = true := ⟨_, rfl, rfl, rfl, rfl⟩
  refine ⟨s, ⟨_, rfl, _, hs⟩, ?_, ⟨_, hd, rfl⟩, hr⟩
  rw [hf]
  rintro ⟨⟩

end CCForge.FrameChain.Arbitration
