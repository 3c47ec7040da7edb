import CCForge.WhenAll.Steps
import Mathlib.Data.Fintype.Card

/-!
# What when_all guarantees

The invariant holds in every reachable state, for any number of children and any
interleaving of their completions. When the last child has decremented, the result is
that of the first failing child, else of a stopped one, else all values.
-/

namespace CCForge.WhenAll

variable {n : ℕ} {V E : Type} {s s' : State n V E} {i : Fin n}

/-! ## The invariant over runs -/

theorem inv_initial (signatures : Fin n → Signatures) (hn : 0 < n) :
    Inv { signatures := signatures : State n V E } := by
  refine ⟨⟨?_, ?_⟩, ?_, by rintro _ ⟨⟩⟩
  · simp [total, Stage.owes, Finset.card_univ]
  · have hz : total Stage.delivers (fun _ : Fin n => (Stage.idle : Stage V E)) = 0 :=
      total_of_zero fun _ => rfl
    show total Stage.delivers (fun _ : Fin n => (Stage.idle : Stage V E)) + 0 = if n = 0 then 1 else 0
    rw [hz, if_neg (by omega)]
  · refine ⟨fun i => rfl, fun _ _ => rfl, by rintro _ _ ⟨⟩, by rintro _ ⟨⟩, rfl, fun _ => rfl,
      fun _ _ => rfl, ?_, by rintro _ _ ⟨⟩, by rintro ⟨⟩, ?_, by rintro ⟨⟩⟩
    · exact fun _ h => absurd rfl h
    · rintro (h | h) <;> cases h

/-- A child that moves on shows that nothing has been delivered. -/
theorem Inv.undelivered (h : Inv s) (hi : s.stage i ≠ .done) : s.delivered = [] := by
  by_contra hd
  exact hi (h.counts.done hd i)

theorem Inv.of_contents {x : Stage V E} (h : Inv s) (hc : Contents s')
    (hst : s'.stage = Function.update s.stage i x) (hp : s'.pending = s.pending)
    (hd : s'.delivered = s.delivered) (ho : x.owes = (s.stage i).owes)
    (hde : x.delivers = (s.stage i).delivers) (hi : s.stage i ≠ .done) : Inv s' := by
  refine ⟨h.counts.setStage hst hp hd ho hde, hc, ?_⟩
  rw [hd, h.undelivered hi]
  nofun

theorem inv_advance (h : Inv s) {throws : Option E} (hs : s.advance i throws = some s') : Inv s' := by
  have hc := h.contents
  unfold State.advance at hs
  split at hs
  · cases hs
  · cases hs
  · cases hs
  · next values hi =>
    have hnone : s.outcome i = none := by
      have hfit := hc.fits i
      unfold Fits at hfit
      rw [hi] at hfit
      exact hfit
    split at hs
    · next error =>
      cases hs
      exact h.of_contents (contents_outcome hc _ hnone (by rw [hi]; nofun) (by rw [hi]; nofun)
        (.inr ⟨_, rfl, rfl⟩)) rfl rfl rfl (by rw [hi]; rfl) (by rw [hi]; rfl) (by rw [hi]; nofun)
    · cases hs
      exact h.of_contents (contents_store hc hi) rfl rfl rfl (by rw [hi]; rfl) (by rw [hi]; rfl)
        (by rw [hi]; nofun)
  · next error hi =>
    cases hs
    refine h.of_contents (contents_exchange hc hi) rfl rfl rfl ?_ ?_ (by rw [hi]; nofun)
    · rw [hi]
      split_ifs <;> rfl
    · rw [hi]
      split_ifs <;> rfl
  · next error hi =>
    cases hs
    exact h.of_contents (contents_failStop hc hi) rfl rfl rfl (by rw [hi]; rfl) (by rw [hi]; rfl)
      (by rw [hi]; nofun)
  · next error hi =>
    -- the winner's own error is the result, unless storing it throws another one
    have herr : ∀ e, s.outcome i = some (.error e) → e = error := by
      intro e he
      have hfit := hc.fits i
      unfold Fits at hfit
      rw [hi] at hfit
      rw [hfit.1] at he
      cases he
      rfl
    split at hs
    · next thrown =>
      cases hs
      exact h.of_contents (contents_result hc (.inl ⟨_, hi⟩)
        fun e _ _ _ => .inl ⟨thrown, rfl, rfl⟩) rfl rfl rfl (by rw [hi]; rfl) (by rw [hi]; rfl)
        (by rw [hi]; nofun)
    · cases hs
      have hthrew : s.storeThrew = none := by
        obtain ⟨e, ho, hhead⟩ := hc.head_of_winning (.inr (.inl ⟨error, hi⟩))
        have hw := hc.winner i e hhead
        unfold Winner at hw
        rw [hi] at hw
        exact hw.1
      refine h.of_contents (contents_result (t := s.storeThrew) hc (.inl ⟨_, hi⟩)
        fun e he _ _ => .inr ⟨rfl, ?_⟩) rfl rfl rfl (by rw [hi]; rfl) (by rw [hi]; rfl)
        (by rw [hi]; nofun)
      rw [hthrew, herr e he]
      rfl
  · next error hi =>
    cases hs
    have hthrew : s.storeThrew = some error := by
      obtain ⟨e, ho, hhead⟩ := hc.head_of_winning (.inr (.inr ⟨error, hi⟩))
      have hw := hc.winner i e hhead
      unfold Winner at hw
      rw [hi] at hw
      exact hw.1
    refine h.of_contents (contents_result (t := s.storeThrew) hc (.inr ⟨_, hi⟩)
      fun e he _ _ => .inr ⟨rfl, ?_⟩) rfl rfl rfl (by rw [hi]; rfl) (by rw [hi]; rfl)
      (by rw [hi]; nofun)
    rw [hthrew]
    rfl
  · next hi =>
    have hstop := contents_stop hc hi
    split_ifs at hs hstop with hd
    · cases hs
      exact h.of_contents hstop rfl rfl rfl (by rw [hi]; rfl) (by rw [hi]; rfl) (by rw [hi]; nofun)
    · cases hs
      exact h.of_contents hstop rfl rfl rfl (by rw [hi]; rfl) (by rw [hi]; rfl) (by rw [hi]; nofun)
  · next hi =>
    cases hs
    exact h.of_contents (contents_stopStore hc hi) rfl rfl rfl (by rw [hi]; rfl) (by rw [hi]; rfl)
      (by rw [hi]; nofun)
  · next hi =>
    cases hs
    exact h.of_contents (contents_stopRequest hc hi) rfl rfl rfl (by rw [hi]; rfl) (by rw [hi]; rfl)
      (by rw [hi]; nofun)
  · next hi =>
    cases hs
    refine ⟨h.counts.decrement hi, ?_, ?_⟩
    · refine contents_settled (i := i) hc (by rw [hi]; rfl) ?_ ⟨rfl, rfl, rfl, rfl, rfl, rfl, rfl, rfl, rfl⟩
        rfl rfl rfl rfl
      split_ifs <;> rfl
    · show ∀ d ∈ s.delivered, _
      rw [h.undelivered (i := i) (by rw [hi]; nofun)]
      nofun
  · next hi =>
    cases hs
    exact h.of_contents (contents_settled (i := i) hc (by rw [hi]; rfl) rfl
      ⟨rfl, rfl, rfl, rfl, rfl, rfl, rfl, rfl, rfl⟩ rfl rfl rfl rfl) rfl rfl rfl (by rw [hi]; rfl)
      (by rw [hi]; rfl) (by rw [hi]; nofun)
  · next hi =>
    cases hs
    -- the only stage that delivers: it comes once, when the last child has decremented
    refine ⟨h.counts.send hi _, ?_, ?_⟩
    · exact contents_settled (i := i) hc (by rw [hi]; rfl) rfl
        ⟨rfl, rfl, rfl, rfl, rfl, rfl, rfl, rfl, rfl⟩ rfl rfl rfl rfl
    · show ∀ d ∈ s.delivered ++ [s.delivery], _
      rw [h.undelivered (i := i) (by rw [hi]; nofun)]
      intro d hd
      rw [List.nil_append, List.mem_singleton] at hd
      exact hd

/-- A step about the outer stop callback. -/
theorem Inv.outer (h : Inv s) {b₁ b₂ b₃ b₄ : Bool} (b₅ b₆ : Bool)
    (hreq : s.stopRequested = true → b₁ = true) (hinv : s.callbackInvoked = true → b₂ = true)
    (hinst : s.installFailed = true → b₃ = true)
    (hasked : b₁ = true → s.stopRequested = true ∨ b₂ = true ∨ b₃ = true)
    (hasks : b₂ = true ∨ b₃ = true → b₁ = true) (houter : b₂ = true → b₄ = true) :
    Inv { s with stopRequested := b₁, callbackInvoked := b₂, installFailed := b₃
                 outerStopRequested := b₄, callback := b₅, registered := b₆ } := by
  have hc := h.contents
  refine ⟨h.counts.same rfl rfl rfl, ?_, h.delivered⟩
  refine ⟨?_, hc.unstarted, hc.failed, hc.stopped, hc.disp, hc.threw, hc.quiet, hc.stopStored, ?_, ?_,
    hasks, houter⟩
  · intro j
    exact (hc.fits j).mono rfl rfl rfl List.prefix_rfl (fun _ hm => hm) hreq
  · intro j e hm
    have hw := hc.winner j e hm
    unfold Winner at hw ⊢
    revert hw
    dsimp only
    cases s.stage j with
    | failStop error => exact id
    | _ => exact fun hw => ⟨hw.1, hreq hw.2⟩
  · intro hb
    rcases hasked hb with hs | hb | hb
    · rcases hc.asked hs with hs | hs | hs | hs
      · exact .inl (hinv hs)
      · exact .inr (.inl (hinst hs))
      · exact .inr (.inr (.inl hs))
      · exact .inr (.inr (.inr hs))
    · exact .inl hb
    · exact .inr (.inl hb)

theorem inv_step (h : Inv s) {l : Label n V E} (hs : step s l = some s') : Inv s' := by
  have hc := h.contents
  cases l with
  | requestOuterStop =>
    cases hs
    exact h.outer s.callback s.registered id id id .inl hc.asks (fun _ => rfl)
  | invokeCallback =>
    simp only [step, Option.ite_none_right_eq_some, Option.some.injEq] at hs
    obtain ⟨⟨-, houter, -⟩, rfl⟩ := hs
    exact h.outer s.callback s.registered (fun _ => rfl) (fun _ => rfl) id
      (fun _ => .inr (.inl rfl)) (fun _ => rfl) (fun _ => houter)
  | register install =>
    simp only [step, Option.ite_none_left_eq_some, Option.some.injEq] at hs
    obtain ⟨-, rfl⟩ := hs
    cases install with
    | notPossible => exact h.outer s.callback true id id id .inl hc.asks hc.invoked
    | throws =>
      exact h.outer s.callback true (fun _ => rfl) id (fun _ => rfl) (fun _ => .inr (.inr rfl))
        (fun _ => rfl) hc.invoked
    | installed =>
      unfold State.register
      dsimp only
      split_ifs with houter
      · exact h.outer s.callback true (fun _ => rfl) (fun _ => rfl) id (fun _ => .inr (.inl rfl))
          (fun _ => rfl) (fun _ => houter)
      · exact h.outer true true id id id .inl hc.asks hc.invoked
  | startChild i =>
    simp only [step, Option.ite_none_right_eq_some, Option.some.injEq] at hs
    obtain ⟨⟨-, hi⟩, rfl⟩ := hs
    have hidle : s.stage i = .idle := hc.unstarted i (by omega)
    exact h.of_contents (contents_start hc hi) rfl rfl rfl (by rw [hidle]; rfl) (by rw [hidle]; rfl)
      (by rw [hidle]; nofun)
  | complete i signal =>
    have hnone : s.stage i = .running → s.outcome i = none := by
      intro hi
      have hfit := hc.fits i
      unfold Fits at hfit
      rw [hi] at hfit
      exact hfit
    simp only [step] at hs
    split at hs
    · next values hi =>
      split_ifs at hs
      cases hs
      exact h.of_contents (contents_value hc hi) rfl rfl rfl (by rw [hi]; rfl) (by rw [hi]; rfl)
        (by rw [hi]; nofun)
    · next error hi =>
      cases hs
      exact h.of_contents (contents_outcome hc _ (hnone hi) (by rw [hi]; nofun) (by rw [hi]; nofun)
        (.inr ⟨_, rfl, rfl⟩)) rfl rfl rfl (by rw [hi]; rfl) (by rw [hi]; rfl) (by rw [hi]; nofun)
    · next hi =>
      split_ifs at hs
      cases hs
      exact h.of_contents (contents_outcome hc _ (hnone hi) (by rw [hi]; nofun) (by rw [hi]; nofun)
        (.inl ⟨rfl, rfl⟩)) rfl rfl rfl (by rw [hi]; rfl) (by rw [hi]; rfl) (by rw [hi]; nofun)
    · cases hs
  | advance i throws => exact inv_advance h hs

theorem reachable_inv (h : Reachable step Initial s) : Inv s := by
  refine Reachable.preserves ?_ (fun _ _ _ hi hs => inv_step hi hs) h
  rintro _ ⟨hn, signatures, rfl⟩
  exact inv_initial signatures hn

/-! ## Signatures -/

/-- The completions are those that the signatures allow. -/
structure Allowed (s : State n V E) : Prop where
  stopped : ∀ i, s.outcome i = some .stopped → (s.signatures i).stopped = true
  value : ∀ i values, s.outcome i = some (.value values) → (s.signatures i).value = true
  storing : ∀ i values, s.stage i = .value values → (s.signatures i).value = true

theorem Allowed.setStage {x : Stage V E} (h : Allowed s) (hsig : s'.signatures = s.signatures)
    (hst : s'.stage = Function.update s.stage i x) (ho : s'.outcome = s.outcome)
    (hx : ∀ values, x = .value values → (s.signatures i).value = true) : Allowed s' := by
  refine ⟨?_, ?_, ?_⟩
  · rw [ho, hsig]
    exact h.stopped
  · rw [ho, hsig]
    exact h.value
  · intro j values hj
    rw [hst] at hj
    rw [hsig]
    by_cases hji : j = i
    · subst hji
      rw [Function.update_self] at hj
      exact hx values hj
    · rw [Function.update_of_ne hji] at hj
      exact h.storing j values hj

theorem Allowed.setOutcome {o : Outcome V E} (h : Allowed s)
    (hs : o = .stopped → (s.signatures i).stopped = true)
    (hv : ∀ values, o = .value values → (s.signatures i).value = true) :
    Allowed (s.setOutcome i o) := by
  refine ⟨?_, ?_, h.storing⟩
  · intro j hj
    by_cases hji : j = i
    · subst hji
      simp only [State.setOutcome, Function.update_self, Option.some.injEq] at hj
      exact hs hj
    · simp only [State.setOutcome, Function.update_of_ne hji] at hj
      exact h.stopped j hj
  · intro j values hj
    by_cases hji : j = i
    · subst hji
      simp only [State.setOutcome, Function.update_self, Option.some.injEq] at hj
      exact hv values hj
    · simp only [State.setOutcome, Function.update_of_ne hji] at hj
      exact h.value j values hj

theorem allowed_advance (h : Allowed s) {throws : Option E} (hs : s.advance i throws = some s') :
    Allowed s' := by
  have hmove : ∀ {u : State n V E} {x : Stage V E}, u.signatures = s.signatures →
      u.stage = Function.update s.stage i x → u.outcome = s.outcome →
      (∀ values, x ≠ .value values) → Allowed u :=
    fun hsig hst ho hx => h.setStage hsig hst ho fun values hv => absurd hv (hx values)
  unfold State.advance at hs
  split at hs
  · cases hs
  · cases hs
  · cases hs
  · next values hi =>
    split at hs
    · next error =>
      cases hs
      have hset : Allowed (s.setStage i (.fail error)) := h.setStage (i := i) rfl rfl rfl nofun
      exact hset.setOutcome nofun nofun
    · cases hs
      have hfinishing : Allowed (s.setStage i .finishing) := h.setStage (i := i) rfl rfl rfl nofun
      have hset := hfinishing.setOutcome
        (i := i) (o := .value values) nofun (fun _ _ => h.storing i values hi)
      exact ⟨hset.stopped, hset.value, hset.storing⟩
  · cases hs
    refine hmove rfl rfl rfl ?_
    intro values
    split_ifs <;> nofun
  · cases hs
    exact hmove rfl rfl rfl nofun
  · split at hs <;> cases hs <;> exact hmove rfl rfl rfl nofun
  · cases hs
    exact hmove rfl rfl rfl nofun
  · split_ifs at hs <;> cases hs <;> exact hmove rfl rfl rfl nofun
  · cases hs
    exact hmove rfl rfl rfl nofun
  · cases hs
    exact hmove rfl rfl rfl nofun
  · cases hs
    refine hmove rfl rfl rfl ?_
    intro values
    split_ifs <;> nofun
  · cases hs
    exact hmove rfl rfl rfl nofun
  · cases hs
    exact hmove rfl rfl rfl nofun

theorem allowed_step (h : Allowed s) {l : Label n V E} (hs : step s l = some s') : Allowed s' := by
  cases l with
  | requestOuterStop =>
    cases hs
    exact ⟨h.stopped, h.value, h.storing⟩
  | invokeCallback =>
    simp only [step, Option.ite_none_right_eq_some, Option.some.injEq] at hs
    obtain ⟨-, rfl⟩ := hs
    exact ⟨h.stopped, h.value, h.storing⟩
  | register install =>
    simp only [step, Option.ite_none_left_eq_some, Option.some.injEq] at hs
    obtain ⟨-, rfl⟩ := hs
    cases install with
    | installed =>
      unfold State.register
      dsimp only
      split_ifs <;> exact ⟨h.stopped, h.value, h.storing⟩
    | _ => exact ⟨h.stopped, h.value, h.storing⟩
  | startChild i =>
    simp only [step, Option.ite_none_right_eq_some, Option.some.injEq] at hs
    obtain ⟨-, rfl⟩ := hs
    exact h.setStage (i := i) rfl rfl rfl nofun
  | complete i signal =>
    simp only [step] at hs
    split at hs
    · split_ifs at hs with hv
      cases hs
      exact h.setStage (i := i) rfl rfl rfl fun _ _ => hv
    · next error _ =>
      cases hs
      have hset : Allowed (s.setStage i (.fail error)) := h.setStage (i := i) rfl rfl rfl nofun
      exact hset.setOutcome nofun nofun
    · split_ifs at hs with hst
      cases hs
      have hset : Allowed (s.setStage i .stop) := h.setStage (i := i) rfl rfl rfl nofun
      exact hset.setOutcome (fun _ => hst) nofun
    · cases hs
  | advance i throws => exact allowed_advance h hs

theorem reachable_allowed (h : Reachable step Initial s) : Allowed s := by
  refine Reachable.preserves ?_ (fun _ _ _ hp hs => allowed_step hp hs) h
  rintro _ ⟨-, signatures, rfl⟩
  exact ⟨nofun, nofun, nofun⟩

/-! ## When all children have completed -/

/-- All children have decremented. -/
def State.AllCompleted (s : State n V E) : Prop := ∀ i, (s.stage i).owes = 0

theorem Contents.accounted (h : Contents s) (hall : s.AllCompleted) (i : Fin n) :
    ∃ o, s.outcome i = some o ∧ Accounted s i o := by
  have hfit := h.fits i
  have hi := hall i
  revert hi
  unfold Fits at hfit
  revert hfit
  cases s.stage i <;> first | exact fun hfit _ => hfit | exact fun _ hi => nomatch hi

theorem Contents.mem_failures (h : Contents s) (hall : s.AllCompleted) {e : E} :
    (i, e) ∈ s.failures ↔ s.outcome i = some (.error e) := by
  constructor
  · exact h.failed i e
  · intro ho
    obtain ⟨o, ho', hacc⟩ := h.accounted hall i
    rw [ho] at ho'
    cases ho'
    exact hacc

theorem Contents.mem_stops (h : Contents s) (hall : s.AllCompleted) :
    i ∈ s.stops ↔ s.outcome i = some .stopped := by
  constructor
  · exact h.stopped i
  · intro ho
    obtain ⟨o, ho', hacc⟩ := h.accounted hall i
    rw [ho] at ho'
    cases ho'
    exact hacc.1

theorem Contents.stored_error (h : Contents s) (hall : s.AllCompleted) {e : E}
    (hhead : s.failures.head? = some (i, e)) :
    s.result = .error (s.storeThrew.getD e) ∧ s.stopRequested = true := by
  have hw := h.winner i e hhead
  have hi := hall i
  revert hi
  unfold Winner at hw
  revert hw
  cases s.stage i <;> first | exact fun hw _ => hw | exact fun _ hi => nomatch hi

theorem delivery_error (h : Contents s) (hall : s.AllCompleted) {e : E}
    (hhead : s.failures.head? = some (i, e)) : s.delivery = .error (s.storeThrew.getD e) := by
  unfold State.delivery
  rw [(h.stored_error hall hhead).1]

theorem no_failures (h : Contents s) (hno : ∀ i e, s.outcome i ≠ some (.error e)) :
    s.failures = [] := by
  apply List.eq_nil_iff_forall_not_mem.mpr
  rintro ⟨i, e⟩ hm
  exact hno i e (h.failed i e hm)

theorem delivery_stopped (h : Contents s) (ha : Allowed s) (hall : s.AllCompleted)
    (hno : ∀ i e, s.outcome i ≠ some (.error e)) (hi : s.outcome i = some .stopped) :
    s.delivery = .stopped := by
  have hstops : s.stops ≠ [] := List.ne_nil_of_mem ((h.mem_stops hall).mpr hi)
  have hres : s.result = .stopped := by
    rcases h.stopStored (no_failures h hno) hstops with hr | ⟨-, j, hj⟩
    · exact hr
    · have hown := hall j
      rw [hj] at hown
      cases hown
  have hsends : s.sendsStopped := ⟨i, ha.stopped i hi⟩
  unfold State.delivery
  rw [hres]
  exact if_pos hsends

theorem mapM_id_some {α : Type} (l : List α) : (l.map some).mapM id = some l := by
  induction l with
  | nil => rfl
  | cons a l ih => simp [ih]

theorem delivery_value (h : Contents s) (ha : Allowed s) (hall : s.AllCompleted)
    {values : Fin n → List V} (hv : ∀ i, s.outcome i = some (.value (values i))) :
    s.delivery = .value (List.ofFn values).flatten := by
  have hfail : s.failures = [] := no_failures h fun i e ho => by
    rw [hv i] at ho
    cases ho
  have hstops : s.stops = [] := by
    apply List.eq_nil_iff_forall_not_mem.mpr
    intro i hm
    have ho := h.stopped i hm
    rw [hv i] at ho
    cases ho
  have hstored : s.stored = fun i => some (values i) := by
    funext i
    obtain ⟨o, ho, hacc⟩ := h.accounted hall i
    rw [hv i] at ho
    cases ho
    exact hacc
  have hflat : s.flattened = some (List.ofFn values).flatten := by
    unfold State.flattened
    rw [hstored]
    have hmap : List.ofFn (fun i => some (values i)) = (List.ofFn values).map some :=
      List.map_ofFn.symm
    rw [hmap, mapM_id_some]
    rfl
  have hcan : s.canValueComplete := fun i => ha.value i _ (hv i)
  unfold State.delivery
  rw [h.quiet hfail hstops]
  dsimp only
  rw [if_pos hcan, hflat]

theorem stop_iff (h : Contents s) (hall : s.AllCompleted) : s.stopRequested = true ↔
    (∃ i, (∃ e, s.outcome i = some (.error e)) ∨ s.outcome i = some .stopped) ∨
      s.callbackInvoked = true ∨ s.installFailed = true := by
  constructor
  · intro hr
    rcases h.asked hr with hc | hc | hc | hc
    · exact .inr (.inl hc)
    · exact .inr (.inr hc)
    · obtain ⟨⟨i, e⟩, hm⟩ := List.exists_mem_of_ne_nil _ hc
      exact .inl ⟨i, .inl ⟨e, h.failed i e hm⟩⟩
    · obtain ⟨i, hm⟩ := List.exists_mem_of_ne_nil _ hc
      exact .inl ⟨i, .inr (h.stopped i hm)⟩
  · rintro (⟨i, ⟨e, ho⟩ | ho⟩ | hc)
    · have hm := (h.mem_failures hall).mpr ho
      cases hf : s.failures with
      | nil =>
        rw [hf] at hm
        cases hm
      | cons p rest =>
        exact (h.stored_error (i := p.1) (e := p.2) hall (by rw [hf]; rfl)).2
    · obtain ⟨o, ho', hacc⟩ := h.accounted hall i
      rw [ho] at ho'
      cases ho'
      exact hacc.2
    · exact h.asks hc

/-! ## Progress -/

namespace Stage

/-- How many steps a child can still take by itself. -/
def work : Stage V E → ℕ
  | .idle | .running | .done => 0
  | .value _ => 9
  | .fail _ => 8
  | .failStop _ => 7
  | .failStore _ => 6
  | .failRestore _ => 5
  | .stop => 7
  | .stopStore => 6
  | .stopRequest => 5
  | .finishing => 4
  | .delivering => 3
  | .sending => 2

end Stage

def State.work (s : State n V E) : ℕ := total Stage.work s.stage

theorem advance_isSome (hi : s.stage i ≠ .idle) (hr : s.stage i ≠ .running) (hd : s.stage i ≠ .done)
    (throws : Option E) : (s.advance i throws).isSome = true := by
  unfold State.advance
  cases hst : s.stage i with
  | idle => exact absurd hst hi
  | running => exact absurd hst hr
  | done => exact absurd hst hd
  | value values => cases throws <;> rfl
  | failStore error => cases throws <;> rfl
  | stop => dsimp only; split_ifs <;> rfl
  | _ => rfl

theorem advance_stage {throws : Option E} (hs : s.advance i throws = some s') :
    ∃ x, s'.stage = Function.update s.stage i x ∧ x.work < (s.stage i).work := by
  unfold State.advance at hs
  split at hs
  · cases hs
  · cases hs
  · cases hs
  · next values hi =>
    rw [hi]
    split at hs <;> cases hs <;> exact ⟨_, rfl, by simp [Stage.work]⟩
  · next error hi =>
    rw [hi]
    cases hs
    refine ⟨_, rfl, ?_⟩
    split_ifs <;> simp [Stage.work]
  · next error hi =>
    rw [hi]
    cases hs
    exact ⟨_, rfl, by simp [Stage.work]⟩
  · next error hi =>
    rw [hi]
    split at hs <;> cases hs <;> exact ⟨_, rfl, by simp [Stage.work]⟩
  · next error hi =>
    rw [hi]
    cases hs
    exact ⟨_, rfl, by simp [Stage.work]⟩
  · next hi =>
    rw [hi]
    split_ifs at hs <;> cases hs <;> exact ⟨_, rfl, by simp [Stage.work]⟩
  · next hi =>
    rw [hi]
    cases hs
    exact ⟨_, rfl, by simp [Stage.work]⟩
  · next hi =>
    rw [hi]
    cases hs
    exact ⟨_, rfl, by simp [Stage.work]⟩
  · next hi =>
    rw [hi]
    cases hs
    refine ⟨_, rfl, ?_⟩
    split_ifs <;> simp [Stage.work]
  · next hi =>
    rw [hi]
    cases hs
    exact ⟨_, rfl, by simp [Stage.work]⟩
  · next hi =>
    rw [hi]
    cases hs
    exact ⟨_, rfl, by simp [Stage.work]⟩

theorem work_advance {throws : Option E} (hs : s.advance i throws = some s') : s'.work < s.work := by
  obtain ⟨x, hst, hlt⟩ := advance_stage hs
  have hup := total_update Stage.work s.stage i x
  unfold State.work
  rw [hst]
  omega

/-! ## The guarantee -/

structure Aggregates (s : State n V E) : Prop where
  once : s.delivered.length ≤ 1
  after : s.delivered ≠ [] → ∀ i, s.stage i = .done ∧ ∃ o, s.outcome i = some o
  delivered : (∀ i, s.stage i = .done) → s.delivered.length = 1
  /-- The failing children are those whose exchange is on record. -/
  failures : s.AllCompleted → ∀ i e, (i, e) ∈ s.failures ↔ s.outcome i = some (.error e)
  error : ∀ d ∈ s.delivered, ∀ i e, s.failures.head? = some (i, e) →
    d = .error (s.storeThrew.getD e)
  stopped : ∀ d ∈ s.delivered, (∀ i e, s.outcome i ≠ some (.error e)) →
    (∃ i, s.outcome i = some .stopped) → d = .stopped
  value : ∀ d ∈ s.delivered, ∀ values : Fin n → List V,
    (∀ i, s.outcome i = some (.value (values i))) → d = .value (List.ofFn values).flatten
  stop : s.AllCompleted → (s.stopRequested = true ↔
    (∃ i, (∃ e, s.outcome i = some (.error e)) ∨ s.outcome i = some .stopped) ∨
      s.callbackInvoked = true ∨ s.installFailed = true)
  invoked : s.callbackInvoked = true → s.outerStopRequested = true
  /-- A child that has completed can go on until it is done, and only so many steps. -/
  progress : ∀ i throws, s.stage i ≠ .idle → s.stage i ≠ .running → s.stage i ≠ .done →
    (s.advance i throws).isSome = true
  bounded : ∀ ls s', (∀ l ∈ ls, ∃ i throws, l = .advance i throws) →
    run step s ls = some s' → ls.length ≤ s.work

theorem Inv.allCompleted (h : Inv s) (hd : s.delivered ≠ []) : s.AllCompleted := by
  intro i
  rw [h.counts.done hd i]
  rfl

/-- `when_all` completes its receiver once, after all children, with the first error, else
stopped, else all values in the order of the senders. -/
theorem when_all_aggregates (h : Reachable step Initial s) : Aggregates s := by
  have hi := reachable_inv h
  have ha := reachable_allowed h
  have hc := hi.contents
  refine ⟨?_, ?_, ?_, fun hall i e => hc.mem_failures hall, ?_, ?_, ?_, fun hall => stop_iff hc hall,
    hc.invoked, fun i throws h₁ h₂ h₃ => advance_isSome h₁ h₂ h₃ throws, ?_⟩
  · have hdel := hi.counts.deliverer
    split_ifs at hdel <;> omega
  · intro hd i
    refine ⟨hi.counts.done hd i, ?_⟩
    obtain ⟨o, ho, -⟩ := hc.accounted (hi.allCompleted hd) i
    exact ⟨o, ho⟩
  · intro hdone
    have hz : s.pending = 0 := by
      rw [hi.counts.pending]
      exact total_of_zero fun i => by rw [hdone i]; rfl
    have hnone : total Stage.delivers s.stage = 0 :=
      total_of_zero fun i => by rw [hdone i]; rfl
    have hdel := hi.counts.deliverer
    rw [hnone, if_pos hz] at hdel
    omega
  · intro d hd i e hhead
    rw [hi.delivered d hd]
    exact delivery_error hc (hi.allCompleted (List.ne_nil_of_mem hd)) hhead
  · rintro d hd hno ⟨i, ho⟩
    rw [hi.delivered d hd]
    exact delivery_stopped hc ha (hi.allCompleted (List.ne_nil_of_mem hd)) hno ho
  · intro d hd values hv
    rw [hi.delivered d hd]
    exact delivery_value hc ha (hi.allCompleted (List.ne_nil_of_mem hd)) hv
  · intro ls s' hls hrun
    have hlowers : ∀ (u : State n V E) l v, True → (∃ i throws, l = .advance i throws) →
        step u l = some v → True ∧ v.work < u.work := by
      rintro u l v - ⟨i, throws, rfl⟩ hs
      exact ⟨trivial, work_advance hs⟩
    have hle := run_length_le hlowers trivial hls hrun
    omega

/-- A stopped child wins its exchange, is overtaken by a failing one before it stores, and a
third child has values. -/
theorem when_all_aggregates_overtaken : ∃ s : State 3 ℕ ℕ, Reachable step Initial s ∧
    s.delivered = [.error 5] ∧ s.failures = [(1, 5)] ∧ s.stops = [0] ∧ s.stopRequested = true ∧
    Aggregates s := by
  obtain ⟨s, hs, h1, h2, h3, h4⟩ : ∃ s : State 3 ℕ ℕ,
      run step { signatures := fun _ => ⟨true, true⟩ } [.register .installed, .startChild 0,
        .complete 0 .stopped, .startChild 1, .advance 0 none, .complete 1 (.error 5),
        .advance 1 none, .advance 1 none, .advance 1 none, .startChild 2, .advance 0 none,
        .complete 2 (.value [8, 9]), .advance 0 none, .advance 0 none, .advance 2 none,
        .advance 1 none, .advance 2 none, .advance 2 none, .advance 2 none] = some s ∧
      s.delivered = [.error 5] ∧ s.failures = [(1, 5)] ∧ s.stops = [0] ∧ s.stopRequested = true :=
    ⟨_, rfl, rfl, rfl, rfl, rfl⟩
  have hr : Reachable step Initial s := ⟨_, ⟨by decide, _, rfl⟩, _, hs⟩
  exact ⟨s, hr, h1, h2, h3, h4, when_all_aggregates hr⟩

/-- The store of an error may throw, and then the receiver gets what it threw. A stop that was
requested before the delivery does not reach the children when the callback is deregistered
before it runs. -/
theorem when_all_other_error_and_missed_stop :
    (∃ s : State 1 ℕ ℕ, Reachable step Initial s ∧ s.failures.head? = some (0, 5) ∧
      s.delivered = [.error 9]) ∧
    ∃ s : State 1 ℕ ℕ, Reachable step Initial s ∧ s.stage 0 = .sending ∧ s.outcome 0 = some (.value [7]) ∧
      s.outerStopRequested = true ∧ s.installFailed = false ∧ s.stopRequested = false := by
  constructor
  · obtain ⟨s, hs, h1, h2⟩ : ∃ s : State 1 ℕ ℕ,
        run step { signatures := fun _ => ⟨true, true⟩ } [.register .installed, .startChild 0,
          .complete 0 (.error 5), .advance 0 none, .advance 0 none, .advance 0 (some 9),
          .advance 0 none, .advance 0 none, .advance 0 none, .advance 0 none] = some s ∧
        s.failures.head? = some (0, 5) ∧ s.delivered = [.error 9] := ⟨_, rfl, rfl, rfl⟩
    exact ⟨s, ⟨_, ⟨by decide, _, rfl⟩, _, hs⟩, h1, h2⟩
  · obtain ⟨s, hs, h1, h2, h3, h4, h5⟩ : ∃ s : State 1 ℕ ℕ,
        run step { signatures := fun _ => ⟨true, true⟩ } [.register .installed, .startChild 0,
          .complete 0 (.value [7]), .advance 0 none, .requestOuterStop, .advance 0 none,
          .advance 0 none] = some s ∧
        s.stage 0 = .sending ∧ s.outcome 0 = some (.value [7]) ∧ s.outerStopRequested = true ∧
        s.installFailed = false ∧ s.stopRequested = false := ⟨_, rfl, rfl, rfl, rfl, rfl, rfl⟩
    exact ⟨s, ⟨_, ⟨by decide, _, rfl⟩, _, hs⟩, h1, h2, h3, h4, h5⟩

end CCForge.WhenAll
