import CCForge.StopSource.Steps

/-!
# What a stop source guarantees
-/

namespace CCForge.StopSource

variable {s s' : State} {o : Option (ThreadId × Frame)} {t : ThreadId} {c : CallbackId}
  {rest : List Frame} {f : Frame}

def Initial (s : State) : Prop := s = {}

theorem reachable_inv (h : Reachable step Initial s) : ∃ o, Inv s o := by
  refine h.preserves (P := fun s => ∃ o, Inv s o) ?_ ?_
  · rintro s rfl
    exact ⟨none, inv_initial⟩
  · rintro s l s' ⟨o, ho⟩ hs
    exact inv_step ho hs

/-- An invocation of `c` is under way on thread `t`. -/
def RunningOn (s : State) (t : ThreadId) (c : CallbackId) : Prop :=
  (∃ head, .running c head ∈ s.stack t) ∨ .runningInline c ∈ s.stack t

theorem owner_of_mem {p : Frame → Bool} {o : Option (ThreadId × Frame)} (h : Sole p s.stack o)
    (hm : f ∈ s.stack t) (hp : p f = true) : o = some (t, f) := by
  have hf : f ∈ (s.stack t).filter p := List.mem_filter.mpr ⟨hm, hp⟩
  rw [h t] at hf
  rcases o with _ | ⟨u, g⟩
  · simp at hf
  · by_cases htu : t = u
    · subst htu
      simp only [ownedBy_self, List.mem_singleton] at hf
      rw [hf]
    · simp [ownedBy_other htu] at hf

theorem Inv.running_place (h : Inv s o) {head : List CallbackId}
    (hm : .running c head ∈ s.stack t) :
    s.requester = some t ∧ placeOf s.callbacks o c = .running := by
  have ho := owner_of_mem h.request.sole hm rfl
  have hq := h.request.requester t _ ho
  have hnil : s.callbacks = [] := h.request.emptied (by simp [h.request.stop, hq])
  refine ⟨hq, ?_⟩
  rw [ho, placeOf_request hnil]
  simp [Frame.place]

/-! ## After the destructor -/

/-- The destructor of `c` has returned to code outside its invocations. -/
def Gone (s : State) (c : CallbackId) : Prop :=
  (∃ t, (s.callback c).destroyed = some (t, false)) ∧ (s.callback c).control.running = false

theorem Gone.not_running (h : Inv s o) (hg : Gone s c) (t : ThreadId) : ¬ RunningOn s t c := by
  obtain ⟨⟨u, hu⟩, hrun⟩ := hg
  obtain ⟨b, d, hsb, hsd, hv⟩ := h.lives c
  rintro (⟨head, hm⟩ | hm)
  · have hr := hv.runs (.inr (h.running_place hm).2)
    simp only at hr
    rw [hrun] at hr
    cases hr
  · have hb := owner_of_mem hsb hm (by simp [Frame.builds])
    have hin := (hv.destroyed u false hu).2.2.2.2.2 (by simp [hb])
    cases hin

/-- What a step may still do to the record of a callback that is gone: the request
passes by and finishes with it. -/
structure Passes (cb cb' : Callback) : Prop where
  destroyed : cb'.destroyed = cb.destroyed
  started : cb'.started = cb.started
  running : cb'.control.running = true → cb.control.running = true

theorem Passes.refl (cb : Callback) : Passes cb cb := ⟨rfl, rfl, id⟩

theorem Passes.of_eq {cb cb' : Callback} (h : cb' = cb) : Passes cb cb' := by
  rw [h]
  exact Passes.refl cb

theorem Gone.advance (h : Inv s o) (hg : Gone s c) (hs : s.advance t = some s') :
    Passes (s.callback c) (s'.callback c) := by
  obtain ⟨⟨u, hu⟩, hrun⟩ := hg
  obtain ⟨b, k, hsb, hsd, hv⟩ := h.lives c
  obtain ⟨hprev, hobj, -, hk, -, hb⟩ := hv.destroyed u false hu
  -- neither its constructor nor its destructor is on a stack
  have hbuild : ∀ {f rest}, s.stack t = f :: rest → f.builds c = true → False := by
    intro f rest htop hf
    obtain ⟨rfl, -⟩ := hsb.of_top htop hf
    exact absurd (hb (by simp)) (by simp)
  have hdestroy : ∀ {f rest}, s.stack t = f :: rest → f.destroys c = true → False := by
    intro f rest htop hf
    obtain ⟨rfl, -⟩ := hsd.of_top htop hf
    cases hk
  have hplace : ∀ {f rest}, s.stack t = f :: rest → f.requests = true →
      placeOf s.callbacks o c = f.place c := by
    intro f rest htop hf
    obtain ⟨rfl, -, -, -, hnil⟩ := h.request.of_top htop hf
    exact placeOf_request hnil c
  unfold State.advance at hs
  split at hs
  · next d rest htop =>
    have hd : c ≠ d := fun he => hbuild htop (by simp [Frame.builds, he])
    split_ifs at hs with hm
    cases hs
    refine Passes.of_eq ?_
    by_cases hstop : s.stopRequested = true <;> simp [State.tryAddCallback, hstop, hd]
  · next d rest htop =>
    have hd : c ≠ d := fun he => hbuild htop (by simp [Frame.builds, he])
    cases hs
    exact Passes.of_eq (Function.update_of_ne hd _ _)
  · next d raw head rest htop =>
    have hd : c ≠ d := by
      rintro rfl
      have hraw := hplace htop rfl
      have hlinked := hv.prev.mpr (.inr (by rw [hraw]; simp [Frame.place]))
      simp only at hlinked
      rw [hprev] at hlinked
      cases hlinked
    cases hs
    exact Passes.of_eq (Function.update_of_ne hd _ _)
  · cases hs
    exact Passes.refl _
  · next d head rest htop =>
    dsimp only at hs
    split_ifs at hs with hc
    · have hd : c ≠ d := by
        rintro rfl
        simp only at hobj
        rw [hobj] at hc
        cases hc.2
      cases hs
      exact Passes.of_eq (Function.update_of_ne hd _ _)
    · cases hs
      exact Passes.refl _
  · cases hs
    exact Passes.refl _
  · next d head rest htop =>
    have hd : c ≠ d := by
      rintro rfl
      have hr := hv.runs (.inl (by rw [hplace htop rfl]; simp [Frame.place]))
      simp only at hr
      rw [hrun] at hr
      cases hr
    cases hs
    exact Passes.of_eq (Function.update_of_ne hd _ _)
  · next d head rest htop =>
    cases hs
    by_cases hd : c = d
    · subst hd
      exact ⟨by simp [State.finish], by simp [State.finish], by simp [State.finish]⟩
    · exact Passes.of_eq (Function.update_of_ne hd _ _)
  · next d rest htop =>
    have hd : c ≠ d := fun he => hdestroy htop (by simp [Frame.destroys, he])
    split_ifs at hs with hm
    cases hs
    unfold State.removeCallback
    split_ifs
    · exact Passes.of_eq (Function.update_of_ne hd _ _)
    · exact Passes.refl _
  · next d rest htop =>
    have hd : c ≠ d := fun he => hdestroy htop (by simp [Frame.destroys, he])
    dsimp only at hs
    split_ifs at hs with hc
    · cases hs
      exact Passes.of_eq (Function.update_of_ne hd _ _)
    · cases hs
      refine Passes.of_eq ?_
      simp [State.destroyReturn, hd]
  · next d rest htop =>
    have hd : c ≠ d := fun he => hdestroy htop (by simp [Frame.destroys, he])
    split_ifs at hs with hr
    cases hs
    exact Passes.of_eq (Function.update_of_ne hd _ _)
  · cases hs

theorem Gone.step (h : Inv s o) (hg : Gone s c) {l : Label} (hs : step s l = some s') :
    Gone s' c ∧ (s'.callback c).started = (s.callback c).started := by
  have hpass : Passes (s.callback c) (s'.callback c) := by
    obtain ⟨⟨u, hu⟩, hrun⟩ := hg
    obtain ⟨b, k, hsb, hsd, hv⟩ := h.lives c
    cases l with
    | construct t d =>
      simp only [StopSource.step, Option.ite_none_right_eq_some, Option.some.injEq] at hs
      obtain ⟨⟨-, hunborn⟩, rfl⟩ := hs
      have hd : c ≠ d := by
        rintro rfl
        have hfresh := hv.unborn hunborn
        simp only at hfresh
        rw [hfresh] at hu
        cases hu
      exact Passes.of_eq (Function.update_of_ne hd _ _)
    | destroy t d =>
      simp only [StopSource.step, Option.ite_none_right_eq_some, Option.some.injEq] at hs
      obtain ⟨⟨-, hdoom, -⟩, rfl⟩ := hs
      have hd : c ≠ d := by
        rintro rfl
        have hdoomed := (hv.destroyed u false hu).2.2.1
        simp only at hdoomed
        rw [hdoom] at hdoomed
        cases hdoomed
      exact Passes.of_eq (Function.update_of_ne hd _ _)
    | requestStop t =>
      simp only [StopSource.step, Option.ite_none_right_eq_some, Option.some.injEq] at hs
      obtain ⟨-, rfl⟩ := hs
      split_ifs <;> exact Passes.refl _
    | advance t => exact Gone.advance h ⟨⟨u, hu⟩, hrun⟩ hs
    | ret t =>
      simp only [StopSource.step, State.ret] at hs
      split at hs
      · next d rest htop =>
        have hd : c ≠ d := by
          rintro rfl
          obtain ⟨rfl, -⟩ := hsb.of_top htop (by simp [Frame.builds])
          exact absurd ((hv.destroyed u false hu).2.2.2.2.2 (by simp)) (by simp)
        cases hs
        exact Passes.of_eq (Function.update_of_ne hd _ _)
      · next d head rest htop =>
        cases hs
        by_cases hd : c = d
        · subst hd
          exact ⟨by simp, by simp, by simp⟩
        · exact Passes.of_eq (Function.update_of_ne hd _ _)
      · cases hs
  obtain ⟨⟨u, hu⟩, hrun⟩ := hg
  refine ⟨⟨⟨u, by rw [hpass.destroyed, hu]⟩, ?_⟩, hpass.started⟩
  by_contra hr
  have hr' := hpass.running (by simpa using hr)
  rw [hrun] at hr'
  cases hr'

theorem Gone.run (h : Inv s o) (hg : Gone s c) {as : List Label}
    (hs : run StopSource.step s as = some s') :
    (∃ o', Inv s' o') ∧ Gone s' c ∧ (s'.callback c).started = (s.callback c).started := by
  induction as generalizing s o with
  | nil =>
    cases hs
    exact ⟨⟨o, h⟩, hg, rfl⟩
  | cons l as ih =>
    obtain ⟨m, hm, hrest⟩ := run_cons hs
    obtain ⟨o', ho'⟩ := inv_step h hm
    obtain ⟨hg', hstarted⟩ := hg.step h hm
    obtain ⟨hinv, hgone, hsame⟩ := ih ho' hg' hrest
    exact ⟨hinv, hgone, hsame.trans hstarted⟩

/-! ## After the request -/

theorem advance_late (hstop : s.stopRequested = true)
    (hb : (s.callback c).built ≠ .registered) (hs : s.advance t = some s') :
    s'.stopRequested = true ∧ (s'.callback c).built ≠ .registered := by
  have hupd : ∀ (d : CallbackId) (k : Callback → Callback),
      (∀ cb, (k cb).built = .registered → cb.built = .registered) →
      (Function.update s.callback d (k (s.callback d)) c).built ≠ .registered := by
    intro d k hk hx
    by_cases hd : c = d
    · subst hd
      rw [Function.update_self] at hx
      exact hb (hk _ hx)
    · rw [Function.update_of_ne hd] at hx
      exact hb hx
  unfold State.advance at hs
  split at hs
  · split_ifs at hs
    cases hs
    simp only [State.tryAddCallback, hstop, if_true]
    exact ⟨hstop, hupd _ (fun cb => { cb with source := false }) fun _ hx => hx⟩
  · cases hs
    exact ⟨hstop, hupd _ (fun cb => { cb with started := cb.started ++ [t] }) fun _ hx => hx⟩
  · cases hs
    exact ⟨hstop, hupd _ (State.detach t) fun _ hx => hx⟩
  · cases hs
    exact ⟨hstop, hb⟩
  · dsimp only at hs
    split_ifs at hs
    · cases hs
      exact ⟨hstop, hupd _ (fun cb => { cb with control := { cb.control with running := true } })
        fun _ hx => hx⟩
    · cases hs
      exact ⟨hstop, hb⟩
  · cases hs
    exact ⟨hstop, hb⟩
  · cases hs
    exact ⟨hstop, hupd _ (fun cb => { cb with started := cb.started ++ [t] }) fun _ hx => hx⟩
  · cases hs
    exact ⟨hstop, hupd _ State.finish fun _ hx => hx⟩
  · split_ifs at hs
    cases hs
    unfold State.removeCallback
    split_ifs
    · exact ⟨hstop, hupd _ (fun cb => { cb with prev := false }) fun _ hx => hx⟩
    · exact ⟨hstop, hb⟩
  · next d rest htop =>
    dsimp only at hs
    split_ifs at hs
    · cases hs
      exact ⟨hstop, hupd _ State.cancel fun _ hx => hx⟩
    · cases hs
      refine ⟨hstop, ?_⟩
      have hret := hupd d (fun cb => { State.cancel cb with
        destroyed := some (t, decide (.runningInline d ∈ rest)) }) fun _ hx => hx
      simpa [State.destroyReturn] using hret
  · next d rest htop =>
    split_ifs at hs
    cases hs
    exact ⟨hstop, hupd d (fun cb => { cb with
      destroyed := some (t, decide (.runningInline d ∈ rest)) }) fun _ hx => hx⟩
  · cases hs

/-- Once a stop is requested no constructor registers any more. -/
theorem step_late {l : Label} (hstop : s.stopRequested = true)
    (hb : (s.callback c).built ≠ .registered) (hs : step s l = some s') :
    s'.stopRequested = true ∧ (s'.callback c).built ≠ .registered := by
  cases l with
  | construct t d =>
    simp only [step, Option.ite_none_right_eq_some, Option.some.injEq] at hs
    obtain ⟨-, rfl⟩ := hs
    by_cases hd : c = d
    · subst hd
      simp [hstop]
    · simp [hstop, hd, hb]
  | destroy t d =>
    simp only [step, Option.ite_none_right_eq_some, Option.some.injEq] at hs
    obtain ⟨-, rfl⟩ := hs
    by_cases hd : c = d
    · subst hd
      simp [hstop, hb]
    · simp [hstop, hd, hb]
  | requestStop t =>
    simp only [step, Option.ite_none_right_eq_some, Option.some.injEq] at hs
    obtain ⟨-, rfl⟩ := hs
    rw [if_pos hstop]
    exact ⟨hstop, hb⟩
  | advance t => exact advance_late hstop hb hs
  | ret t =>
    simp only [step, State.ret] at hs
    split at hs
    · next d rest htop =>
      cases hs
      by_cases hd : c = d
      · subst hd
        simp [hstop]
      · simp [hstop, hd, hb]
    · next d head rest htop =>
      cases hs
      by_cases hd : c = d
      · subst hd
        simp [hstop, hb]
      · simp [hstop, hd, hb]
    · cases hs

theorem run_late (hstop : s.stopRequested = true) (hb : (s.callback c).built ≠ .registered)
    {as : List Label} (hs : run step s as = some s') : (s'.callback c).built ≠ .registered :=
  (run_preserves (P := fun s => s.stopRequested = true ∧ (s.callback c).built ≠ .registered)
    (fun _ _ _ h hs => step_late h.1 h.2 hs) ⟨hstop, hb⟩ hs).2

/-! ## The guarantees -/

structure Invokes (s : State) : Prop where
  /-- At most one `request_stop` returns true, and any other that returned lost to it. -/
  wins : s.results.count true ≤ 1
  loses : s.results ≠ [] →
    s.results.count true = 1 ∨ ∃ t, ∃ f ∈ s.stack t, f.requests = true
  once : ∀ c, (s.callback c).started.length ≤ 1
  /-- A request that returned has run every callback registered before it whose
  destructor has not started. -/
  byRequest : true ∈ s.results → ∀ c, (s.callback c).built = .registered →
    (s.callback c).doomed = false → ∃ t ∈ (s.callback c).ended, s.requester = some t
  /-- A constructor that comes after the request invokes its callback before it returns. -/
  late : s.stopRequested = true → ∀ c, (s.callback c).built ≠ .registered →
    ∀ as s', run step s as = some s' → (s'.callback c).built ≠ .registered ∧
      ((s'.callback c).built = .invoked → (s'.callback c).ended ≠ [])
  /-- After a destructor that ran neither on the requesting thread nor inside the
  invocation made by the callback's own constructor, nothing of the callback runs. -/
  destroyed : ∀ c t, (s.callback c).destroyed = some (t, false) → s.requester ≠ some t →
    ∀ as s', run step s as = some s' →
      (∀ u, ¬ RunningOn s' u c) ∧ (s'.callback c).started = (s.callback c).started
  /-- No destructor waits for an invocation on its own thread. -/
  waits : ∀ t c, .waiting c ∈ s.stack t → ¬ RunningOn s t c

theorem Inv.waits (h : Inv s o) (hw : .waiting c ∈ s.stack t) : ¬ RunningOn s t c := by
  obtain ⟨b, d, hsb, hsd, hv⟩ := h.lives c
  have hd := owner_of_mem hsd hw (by simp [Frame.destroys])
  obtain ⟨-, -, hdet, hne⟩ := hv.waiting t hd
  obtain ⟨hthread, -, hreg⟩ := hv.detached hdet
  simp only at hthread hne hreg
  rintro (⟨head, hm⟩ | hm)
  · exact hne (hthread.trans (h.running_place hm).1)
  · have hb := owner_of_mem hsb hm (by simp [Frame.builds])
    have hcon := hv.building.mpr (by simp [hb])
    simp only at hcon
    rw [hreg] at hcon
    cases hcon

theorem Inv.gone (h : Inv s o) (hd : (s.callback c).destroyed = some (t, false))
    (hq : s.requester ≠ some t) : Gone s c := by
  obtain ⟨b, d, -, -, hv⟩ := h.lives c
  refine ⟨⟨t, hd⟩, ?_⟩
  by_contra hr
  have hrun : (s.callback c).control.running = true := by simpa using hr
  have hthread := (hv.destroyed t false hd).2.2.2.2.1 hrun
  have hdet := hv.detached (hv.running hrun).1
  exact hq (hdet.1.symm.trans hthread)

/-- For any number of callbacks and threads and any interleaving of constructions,
destructions, invocations and stop requests. -/
theorem stop_source_invokes (h : Reachable step Initial s) : Invokes s := by
  obtain ⟨o, ho⟩ := reachable_inv h
  have hwon := ho.request.won
  refine ⟨?_, ?_, ?_, ?_, ?_, ?_, fun t c hw => ho.waits hw⟩
  · by_cases hstop : s.stopRequested = true
    · rw [if_pos hstop] at hwon
      omega
    · rw [if_neg hstop] at hwon
      omega
  · intro hres
    rw [if_pos (ho.request.lost hres)] at hwon
    rcases o with _ | ⟨t, f⟩
    · exact .inl (by simpa using hwon)
    · refine .inr ⟨t, f, ?_⟩
      have hf : f ∈ (s.stack t).filter Frame.requests := by rw [ho.request.sole t]; simp
      exact List.mem_filter.mp hf
  · intro c
    obtain ⟨b, d, -, -, hv⟩ := ho.lives c
    exact hv.once
  · intro hres c hbuilt hdoom
    obtain ⟨b, d, -, -, hv⟩ := ho.lives c
    have hpos : 0 < s.results.count true := List.count_pos_iff.mpr hres
    have hstop := ho.request.lost (List.ne_nil_of_mem hres)
    rw [if_pos hstop] at hwon
    have hnone : o = none := by
      rcases o with _ | ⟨t, f⟩
      · rfl
      · simp only [Option.toList_some, List.length_singleton] at hwon
        omega
    have hout : placeOf s.callbacks o c = .outside := by
      rw [hnone, ho.request.emptied hstop]
      rfl
    have hawaits := hv.awaits hbuilt hdoom
    simpa [hout] using hawaits
  · intro hstop c hb as s' hs
    refine ⟨run_late hstop hb hs, fun hinv => ?_⟩
    obtain ⟨o', ho'⟩ := run_preserves (P := fun s => ∃ o, Inv s o)
      (fun _ _ _ h hs => inv_step h.choose_spec hs) ⟨o, ho⟩ hs
    obtain ⟨b, d, -, -, hv⟩ := ho'.lives c
    exact hv.invoked hinv
  · intro c t hd hq as s' hs
    obtain ⟨⟨o', ho'⟩, hgone, hstarted⟩ := (ho.gone hd hq).run ho hs
    exact ⟨fun u => hgone.not_running ho' u, hstarted⟩

/-- Thread 1 requests the stop; callback 1 runs there and destroys callback 0 before
its turn, while callback 2 is destroyed on thread 2 after it ran. -/
theorem stop_source_invokes_nested : ∃ s : State, Reachable step Initial s ∧
    s.results = [true] ∧ (s.callback 1).ended = [1] ∧ (s.callback 0).started = [] ∧
    (s.callback 2).destroyed = some (2, false) ∧ Invokes s := by
  obtain ⟨s, hs, h1, h2, h3, h4⟩ : ∃ s : State, run step {}
      [.construct 0 0, .advance 0, .construct 0 1, .advance 0, .construct 0 2, .advance 0,
        .requestStop 1, .advance 1, .advance 1, .advance 1, .advance 1,
        .advance 1, .advance 1, .ret 1, .advance 1,
        .destroy 2 2, .advance 2,
        .advance 1, .advance 1, .destroy 1 0, .advance 1, .ret 1, .advance 1,
        .advance 1, .advance 1, .advance 1] = some s ∧
      s.results = [true] ∧ (s.callback 1).ended = [1] ∧ (s.callback 0).started = [] ∧
      (s.callback 2).destroyed = some (2, false) := ⟨_, rfl, rfl, rfl, rfl, rfl⟩
  have hr : Reachable step Initial s := ⟨{}, rfl, _, hs⟩
  exact ⟨s, hr, h1, h2, h3, h4, stop_source_invokes hr⟩

/-- A callback constructed on thread 2 after the request of thread 1 is invoked by its
constructor and destroys itself: the destructor has returned and the callback runs on. -/
theorem inline_self_destruction_outlives : ∃ s : State, Reachable step Initial s ∧
    s.requester = some 1 ∧ s.results = [true] ∧ (s.callback 0).destroyed = some (2, true) ∧
    RunningOn s 2 0 := by
  obtain ⟨s, hs, h1, h2, h3, h4⟩ : ∃ s : State, run step {}
      [.requestStop 1, .advance 1, .advance 1, .construct 2 0, .advance 2, .advance 2,
        .destroy 2 0, .advance 2] = some s ∧
      s.requester = some 1 ∧ s.results = [true] ∧ (s.callback 0).destroyed = some (2, true) ∧
      s.stack 2 = [.runningInline 0] := ⟨_, rfl, rfl, rfl, rfl, rfl⟩
  exact ⟨s, ⟨{}, rfl, _, hs⟩, h1, h2, h3, .inr (by simp [h4])⟩

end CCForge.StopSource
