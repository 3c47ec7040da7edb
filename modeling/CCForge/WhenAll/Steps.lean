import CCForge.WhenAll.Invariants

/-!
# The steps of a child

One lemma for each place in the completion of a child. Only the first failing child
gets past the exchange, so the stores of an error are its own.
-/

namespace CCForge.WhenAll

variable {n : ℕ} {V E : Type} {s s' : State n V E} {i j : Fin n}

/-- The winner of the exchange is the first failing child. -/
theorem Contents.head_of_winning (h : Contents s)
    (hi : (∃ e, s.stage i = .failStop e) ∨ (∃ e, s.stage i = .failStore e) ∨
      ∃ e, s.stage i = .failRestore e) :
    ∃ e, s.outcome i = some (.error e) ∧ s.failures.head? = some (i, e) := by
  have hfit := h.fits i
  unfold Fits at hfit
  rcases hi with ⟨e, hi⟩ | ⟨e, hi⟩ | ⟨e, hi⟩
  · rw [hi] at hfit
    exact ⟨e, hfit⟩
  · rw [hi] at hfit
    exact ⟨e, hfit⟩
  · rw [hi] at hfit
    exact hfit

/-! ## Values -/

theorem contents_start (h : Contents s) (hi : s.started = i) :
    Contents { s.setStage i .running with started := s.started + 1 } := by
  have hidle : s.stage i = .idle := h.unstarted i (by omega)
  have hnone : s.outcome i = none := by
    have hfit := h.fits i
    unfold Fits at hfit
    rw [hidle] at hfit
    exact hfit
  refine h.moves (i := i) ⟨rfl, rfl, rfl, rfl, rfl, rfl, rfl, rfl, rfl⟩ rfl (by rw [hidle]; nofun) ?_
    (fun _ _ => rfl) (.inr rfl) (fun _ _ => rfl) ?_ ?_
  · intro j hj
    have hlt : s.started + 1 ≤ j := hj
    have hne : j ≠ i := by
      rintro rfl
      omega
    show Function.update s.stage i .running j = .idle
    rw [Function.update_of_ne hne]
    exact h.unstarted j (by omega)
  · simpa [Fits] using hnone
  · intro e he
    exact absurd (List.mem_of_mem_head? he) ((h.fresh hnone).1 e)

/-- A completion arrives, or a store of values throws. -/
theorem contents_outcome {x : Stage V E} (h : Contents s) (o : Outcome V E)
    (hnone : s.outcome i = none) (hidle : s.stage i ≠ .idle) (hst : s.stage i ≠ .stopStore)
    (hx : (x = .stop ∧ o = .stopped) ∨ ∃ e, x = .fail e ∧ o = .error e) :
    Contents ((s.setStage i x).setOutcome i o) := by
  refine h.moves (i := i) ⟨rfl, rfl, rfl, rfl, rfl, rfl, rfl, rfl, rfl⟩ rfl hst ?_ ?_ (.inl hnone)
    (fun _ _ => rfl) ?_ ?_
  · exact unstarted_step h.unstarted rfl hidle rfl
  · intro j hj
    exact Function.update_of_ne hj _ _
  · rcases hx with ⟨rfl, rfl⟩ | ⟨e, rfl, rfl⟩ <;> simp [Fits]
  · intro e he
    exact absurd (List.mem_of_mem_head? he) ((h.fresh hnone).1 e)

theorem contents_value (h : Contents s) {values : List V} (hi : s.stage i = .running) :
    Contents (s.setStage i (.value values)) := by
  have hnone : s.outcome i = none := by
    have hfit := h.fits i
    unfold Fits at hfit
    rw [hi] at hfit
    exact hfit
  refine h.moves (i := i) ⟨rfl, rfl, rfl, rfl, rfl, rfl, rfl, rfl, rfl⟩ rfl (by rw [hi]; nofun)
    (unstarted_step h.unstarted rfl (by rw [hi]; nofun) rfl) (fun _ _ => rfl) (.inr rfl)
    (fun _ _ => rfl) ?_ ?_
  · simpa [Fits] using hnone
  · intro e he
    exact absurd (List.mem_of_mem_head? he) ((h.fresh hnone).1 e)

theorem contents_store (h : Contents s) {values : List V} (hi : s.stage i = .value values) :
    Contents { (s.setStage i .finishing).setOutcome i (.value values) with
      stored := Function.update s.stored i (some values) } := by
  have hnone : s.outcome i = none := by
    have hfit := h.fits i
    unfold Fits at hfit
    rw [hi] at hfit
    exact hfit
  refine h.moves (i := i) ⟨rfl, rfl, rfl, rfl, rfl, rfl, rfl, rfl, rfl⟩ rfl (by rw [hi]; nofun)
    (unstarted_step h.unstarted rfl (by rw [hi]; nofun) rfl) ?_ (.inl hnone) ?_ ?_ ?_
  · intro j hj
    exact Function.update_of_ne hj _ _
  · intro j hj
    exact Function.update_of_ne hj _ _
  · simp [Fits, Accounted]
  · intro e he
    exact absurd (List.mem_of_mem_head? he) ((h.fresh hnone).1 e)

/-- A child whose completion is accounted for goes on. -/
theorem contents_settled {x : Stage V E} (h : Contents s) (hi : (s.stage i).settled = true)
    (hx : x.settled = true) (hu : Untouched s s') (hst : s'.stage = Function.update s.stage i x)
    (hstarted : s'.started = s.started) (ho : s'.outcome = s.outcome)
    (hstored : s'.stored = s.stored) : Contents s' := by
  have hnot : s.stage i ≠ .stopStore ∧ s.stage i ≠ .idle := by
    constructor <;> intro hc <;> rw [hc] at hi <;> cases hi
  have hxi : s'.stage i = x := by
    rw [hst, Function.update_self]
  refine h.moves hu hst hnot.1 (unstarted_step h.unstarted hst hnot.2 hstarted)
    (fun j _ => by rw [ho]) (.inr (by rw [ho])) (fun j _ => by rw [hstored]) ?_ ?_
  · have hfit := h.fits i
    have hacc : ∀ o, Accounted s i o → Accounted s' i o := by
      intro o hacc
      cases o with
      | value values =>
        rw [Accounted, hstored]
        exact hacc
      | error error =>
        rw [Accounted, hu.failures]
        exact hacc
      | stopped =>
        rw [Accounted, hu.stops, hu.stopRequested]
        exact hacc
    have hold : ∃ o, s.outcome i = some o ∧ Accounted s i o := by
      revert hi
      unfold Fits at hfit
      revert hfit
      cases s.stage i <;> first | exact fun hfit _ => hfit | exact fun _ hi => nomatch hi
    obtain ⟨o, ho', ha⟩ := hold
    have hnew : ∃ o, s'.outcome i = some o ∧ Accounted s' i o := ⟨o, by rw [ho]; exact ho', hacc o ha⟩
    unfold Fits
    rw [hxi]
    revert hx
    cases x <;> first | exact fun _ => hnew | exact fun hx => nomatch hx
  · intro e he
    have hw := h.winner i e he
    have hold : s.result = .error (s.storeThrew.getD e) ∧ s.stopRequested = true := by
      revert hi
      unfold Winner at hw
      revert hw
      cases s.stage i <;> first | exact fun hw _ => hw | exact fun _ hi => nomatch hi
    unfold Winner
    rw [hxi, hu.result, hu.storeThrew, hu.stopRequested]
    revert hx
    cases x <;> first | exact fun _ => hold | exact fun hx => nomatch hx

/-! ## Failures -/

theorem contents_exchange (h : Contents s) {e : E} (hi : s.stage i = .fail e) :
    Contents { s.setStage i (if s.disp = .error then .finishing else .failStop e) with
      disp := .error
      failures := s.failures ++ [(i, e)] } := by
  have hout : s.outcome i = some (.error e) := by
    have hfit := h.fits i
    unfold Fits at hfit
    rw [hi] at hfit
    exact hfit
  have hdisp : s.disp = .error ↔ s.failures ≠ [] := by
    rw [h.disp]
    unfold dispositionOf
    split_ifs <;> simp_all
  have hidle : s.stage i ≠ .idle := by rw [hi]; nofun
  have hne : s.failures ++ [(i, e)] ≠ [] := by simp
  refine ⟨?_, unstarted_step h.unstarted rfl hidle rfl, ?_, h.stopped, ?_, ?_, ?_, ?_, ?_, ?_, h.asks,
    h.invoked⟩
  · refine fits_step h.fits rfl (fun _ _ => rfl) (fun _ _ => rfl) (List.prefix_append _ _)
      (fun _ hm => hm) id ?_
    unfold Fits
    simp only [State.setStage, Function.update_self]
    by_cases hd : s.disp = .error
    · rw [if_pos hd]
      exact ⟨_, hout, List.mem_append_right _ List.mem_cons_self⟩
    · rw [if_neg hd]
      have hnil : s.failures = [] := by
        by_contra hne
        exact hd (hdisp.mpr hne)
      refine ⟨hout, ?_⟩
      rw [hnil]
      rfl
  · intro j e' hm
    rcases List.mem_append.mp hm with hm | hm
    · exact h.failed j e' hm
    · rw [List.mem_singleton] at hm
      cases hm
      exact hout
  · unfold dispositionOf
    rw [if_pos hne]
  · exact fun hnil => absurd hnil hne
  · exact fun hnil => absurd hnil hne
  · exact fun hnil => absurd hnil hne
  · intro j e' hm
    cases hf : s.failures with
    | nil =>
      -- the first failure
      have hj : j = i ∧ e' = e := by
        rw [hf] at hm
        simp only [List.nil_append, List.head?_cons, Option.some.injEq, Prod.mk.injEq] at hm
        exact ⟨hm.1.symm, hm.2.symm⟩
      obtain ⟨rfl, rfl⟩ := hj
      have hd : s.disp ≠ .error := by
        rw [Ne, hdisp, hf]
        simp
      unfold Winner
      simp only [State.setStage, Function.update_self, if_neg hd]
      exact h.threw hf
    | cons p rest =>
      have hp : s.failures.head? = some (j, e') := by
        rw [hf] at hm ⊢
        exact hm
      have hd : s.disp = .error := by
        rw [hdisp, hf]
        simp
      have hw := h.winner j e' hp
      by_cases hj : j = i
      · -- a child fails once
        subst hj
        unfold Winner at hw ⊢
        rw [hi] at hw
        simp only [State.setStage, Function.update_self, if_pos hd]
        exact hw
      · exact hw.other hj rfl rfl (fun _ hr => hr) id
  · intro _
    exact .inr (.inr (.inl hne))

theorem contents_failStop (h : Contents s) {e : E} (hi : s.stage i = .failStop e) :
    Contents { s.setStage i (.failStore e) with stopRequested := true } := by
  obtain ⟨e', hout, hhead⟩ := h.head_of_winning (.inl ⟨e, hi⟩)
  have hidle : s.stage i ≠ .idle := by rw [hi]; nofun
  refine ⟨?_, unstarted_step h.unstarted rfl hidle rfl, h.failed, h.stopped, h.disp, h.threw, h.quiet,
    ?_, ?_, ?_, fun _ => rfl, h.invoked⟩
  · refine fits_step h.fits rfl (fun _ _ => rfl) (fun _ _ => rfl) List.prefix_rfl
      (fun _ hm => hm) (fun _ => rfl) ?_
    have hfit := h.fits i
    unfold Fits at hfit ⊢
    rw [hi] at hfit
    simpa using hfit
  · intro h₁ h₂
    exact stopStored_step rfl (by rw [hi]; nofun) (h.stopStored h₁ h₂) rfl
  · intro j d hm
    have hw := h.winner j d hm
    by_cases hj : j = i
    · subst hj
      unfold Winner at hw ⊢
      rw [hi] at hw
      simpa using hw
    · exact hw.other hj rfl rfl (fun _ hr => hr) (fun _ => rfl)
  · intro _
    refine .inr (.inr (.inl ?_))
    intro hnil
    have hnil' : s.failures = [] := hnil
    rw [hnil'] at hhead
    cases hhead

/-- The winner stores under the mutex. -/
theorem contents_result {x : Stage V E} {result : Result E} {t : Option E} (h : Contents s)
    (hi : (∃ e, s.stage i = .failStore e) ∨ ∃ e, s.stage i = .failRestore e)
    (hx : ∀ e, s.outcome i = some (.error e) → s.failures.head? = some (i, e) →
      s.stopRequested = true →
      (∃ e', x = .failRestore e' ∧ t = some e') ∨
        (x = .finishing ∧ result = .error (t.getD e))) :
    Contents { s.setStage i x with result := result, storeThrew := t } := by
  obtain ⟨e, hout, hhead⟩ := h.head_of_winning (.inr hi)
  have hreq : s.stopRequested = true := by
    have hw := h.winner i e hhead
    unfold Winner at hw
    rcases hi with ⟨e', hi⟩ | ⟨e', hi⟩ <;> rw [hi] at hw <;> exact hw.2
  have hne : s.failures ≠ [] := by
    intro hnil
    rw [hnil] at hhead
    cases hhead
  have hidle : s.stage i ≠ .idle := by
    rcases hi with ⟨e', hi⟩ | ⟨e', hi⟩ <;> rw [hi] <;> nofun
  have hx := hx e hout hhead hreq
  refine ⟨?_, unstarted_step h.unstarted rfl hidle rfl, h.failed, h.stopped, h.disp,
    fun hnil => absurd hnil hne, fun hnil => absurd hnil hne, fun hnil => absurd hnil hne, ?_, h.asked,
    h.asks, h.invoked⟩
  · refine fits_step h.fits rfl (fun _ _ => rfl) (fun _ _ => rfl) List.prefix_rfl
      (fun _ hm => hm) id ?_
    unfold Fits
    simp only [State.setStage, Function.update_self]
    rcases hx with ⟨e', rfl, -⟩ | ⟨rfl, -⟩
    · exact ⟨e, hout, hhead⟩
    · exact ⟨_, hout, List.mem_of_mem_head? hhead⟩
  · intro j d hm
    have hm' : s.failures.head? = some (j, d) := hm
    rw [hhead] at hm'
    cases hm'
    unfold Winner
    simp only [State.setStage, Function.update_self]
    rcases hx with ⟨e', rfl, hthrew⟩ | ⟨rfl, hres⟩
    · exact ⟨hthrew, hreq⟩
    · exact ⟨hres, hreq⟩

/-! ## Stops -/

theorem contents_stop (h : Contents s) (hi : s.stage i = .stop) :
    Contents (if s.disp = .started then
        { s.setStage i .stopStore with disp := .stopped, stops := s.stops ++ [i] }
      else { s.setStage i .stopRequest with stops := s.stops ++ [i] }) := by
  have hout : s.outcome i = some .stopped := by
    have hfit := h.fits i
    unfold Fits at hfit
    rw [hi] at hfit
    exact hfit
  have hidle : s.stage i ≠ .idle := by rw [hi]; nofun
  have hne : s.stops ++ [i] ≠ [] := by simp
  have hmem : i ∈ s.stops ++ [i] := List.mem_append_right _ List.mem_cons_self
  have hstopped : ∀ j ∈ s.stops ++ [i], s.outcome j = some .stopped := by
    intro j hm
    rcases List.mem_append.mp hm with hm | hm
    · exact h.stopped j hm
    · rw [List.mem_singleton] at hm
      rw [hm]
      exact hout
  -- A stopped child is not the one that failed first.
  have hnohead : ∀ j e, s.failures.head? = some (j, e) → j ≠ i := by
    rintro j e hm rfl
    have ho := h.failed j e (List.mem_of_mem_head? hm)
    rw [hout] at ho
    cases ho
  split_ifs with hd
  -- Nothing was recorded before this stop: it wins the disposition and stores the stop.
  · have hstarted := h.disp
    rw [hd] at hstarted
    have hnil : s.failures = [] ∧ s.stops = [] := by
      unfold dispositionOf at hstarted
      split_ifs at hstarted with h₁ h₂
      exact ⟨by simpa using h₁, by simpa using h₂⟩
    refine ⟨?_, unstarted_step h.unstarted rfl hidle rfl, h.failed, hstopped, ?_, h.threw,
      fun _ hn => absurd hn hne, ?_, ?_, fun _ => .inr (.inr (.inr hne)), h.asks, h.invoked⟩
    · refine fits_step h.fits rfl (fun _ _ => rfl) (fun _ _ => rfl) List.prefix_rfl
        (List.subset_append_left _ _) id ?_
      unfold Fits
      simp only [State.setStage, Function.update_self]
      exact ⟨hout, hmem⟩
    · show Disposition.stopped = dispositionOf s.failures (s.stops ++ [i])
      unfold dispositionOf
      rw [if_neg (by simp [hnil.1]), if_pos hne]
    · intro _ _
      refine .inr ⟨h.quiet hnil.1 hnil.2, i, ?_⟩
      exact Function.update_self _ _ _
    · intro j e hm
      exact (h.winner j e hm).other (hnohead j e hm) rfl rfl (fun _ hr => hr) id
  · refine ⟨?_, unstarted_step h.unstarted rfl hidle rfl, h.failed, hstopped, ?_, h.threw,
      fun _ hn => absurd hn hne, ?_, ?_, fun _ => .inr (.inr (.inr hne)), h.asks, h.invoked⟩
    · refine fits_step h.fits rfl (fun _ _ => rfl) (fun _ _ => rfl) List.prefix_rfl
        (List.subset_append_left _ _) id ?_
      unfold Fits
      simp only [State.setStage, Function.update_self]
      exact ⟨hout, hmem⟩
    · show s.disp = dispositionOf s.failures (s.stops ++ [i])
      have hdisp := h.disp
      unfold dispositionOf at hdisp ⊢
      rw [if_pos hne]
      split_ifs at hdisp ⊢ with h₁ h₂
      · exact hdisp
      · exact hdisp
      · exact absurd hdisp hd
    · intro h₁ _
      have hs : s.stops ≠ [] := by
        intro hs
        apply hd
        rw [h.disp]
        simp [dispositionOf, show s.failures = [] from h₁, hs]
      exact stopStored_step rfl (by rw [hi]; nofun) (h.stopStored h₁ hs) rfl
    · intro j e hm
      exact (h.winner j e hm).other (hnohead j e hm) rfl rfl (fun _ hr => hr) id

theorem contents_stopStore (h : Contents s) (hi : s.stage i = .stopStore) :
    Contents { s.setStage i .stopRequest with
      result := match s.result with
        | .monostate => .stopped
        | result => result } := by
  have hfit := h.fits i
  unfold Fits at hfit
  rw [hi] at hfit
  have hidle : s.stage i ≠ .idle := by rw [hi]; nofun
  have hnil : s.stops ≠ [] := List.ne_nil_of_mem hfit.2
  refine ⟨?_, unstarted_step h.unstarted rfl hidle rfl, h.failed, h.stopped, h.disp, h.threw,
    fun _ hs => absurd hs hnil, ?_, ?_, h.asked, h.asks, h.invoked⟩
  · refine fits_step h.fits rfl (fun _ _ => rfl) (fun _ _ => rfl) List.prefix_rfl
      (fun _ hm => hm) id ?_
    unfold Fits
    simp only [State.setStage, Function.update_self]
    exact hfit
  · intro h₁ h₂
    left
    rcases h.stopStored h₁ h₂ with hr | ⟨hr, -⟩ <;> simp [hr]
  · intro j e hm
    have hji : j ≠ i := by
      rintro rfl
      have ho := h.failed j e (List.mem_of_mem_head? hm)
      rw [hfit.1] at ho
      cases ho
    refine (h.winner j e hm).other hji rfl rfl ?_ id
    intro e' hr
    simp [hr]

theorem contents_stopRequest (h : Contents s) (hi : s.stage i = .stopRequest) :
    Contents { s.setStage i .finishing with stopRequested := true } := by
  have hfit := h.fits i
  unfold Fits at hfit
  rw [hi] at hfit
  have hidle : s.stage i ≠ .idle := by rw [hi]; nofun
  have hnil : s.stops ≠ [] := List.ne_nil_of_mem hfit.2
  refine ⟨?_, unstarted_step h.unstarted rfl hidle rfl, h.failed, h.stopped, h.disp, h.threw, h.quiet,
    ?_, ?_, fun _ => .inr (.inr (.inr hnil)), fun _ => rfl, h.invoked⟩
  · refine fits_step h.fits rfl (fun _ _ => rfl) (fun _ _ => rfl) List.prefix_rfl
      (fun _ hm => hm) (fun _ => rfl) ?_
    unfold Fits
    simp only [State.setStage, Function.update_self]
    exact ⟨_, hfit.1, hfit.2, rfl⟩
  · intro h₁ h₂
    exact stopStored_step rfl (by rw [hi]; nofun) (h.stopStored h₁ h₂) rfl
  · intro j e hm
    have hji : j ≠ i := by
      rintro rfl
      have ho := h.failed j e (List.mem_of_mem_head? hm)
      rw [hfit.1] at ho
      cases ho
    exact (h.winner j e hm).other hji rfl rfl (fun _ hr => hr) (fun _ => rfl)

end CCForge.WhenAll
