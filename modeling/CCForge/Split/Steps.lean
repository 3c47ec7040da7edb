import CCForge.Split.Invariants

/-!
# The steps of split

The calls of `start` first, then the completion of the source. A delivery ends in one
of two ways: the receiver is completed, or the subscriber was destroyed before.
-/

namespace CCForge.Split

variable {V E : Type} {s s' : State V E} {op : OpId}

/-! ## The call of `start` -/

/-- A subscriber that stands nowhere has not been completed. -/
theorem Inv.nowhere (h : Inv s) (hr : (s.sub op).call.registered = 0) :
    op ∉ s.onDone ∧ op ∉ s.source.callbacks ∧ op ∉ s.completed.map Prod.fst ∧ op ∉ s.dropped := by
  have hp := h.places op
  rw [hr] at hp
  unfold State.places at hp
  refine ⟨?_, ?_, ?_, ?_⟩ <;> exact List.count_eq_zero.mp (by omega)

/-- Before its call registers, a subscriber has thrown nothing. -/
theorem Inv.not_threw (h : Inv s) (hr : (s.sub op).call.registered = 0) :
    (s.sub op).threw = none := by
  cases ht : (s.sub op).threw with
  | none => rfl
  | some error =>
    obtain ⟨-, -, hc | hc | hc⟩ := h.threw op error ht <;> rw [hc] at hr <;> cases hr

theorem inv_start (h : Inv s) (hc : (s.sub op).call.isConnected = true) :
    Inv (s.setCall op .registering) := by
  cases hcall : (s.sub op).call with
  | connected =>
    have hr : (s.sub op).call.registered = 0 := by
      rw [hcall]
      rfl
    refine h.setSub (by rw [hcall]; rfl) ⟨nofun, by rw [hcall]; nofun⟩ ?_ (h.destroyed op) id ?_ ?_
      ?_ (.inl rfl)
    · exact fun ha => .inr (.inr ⟨ha, by rw [hcall]; rfl⟩)
    · intro error ht
      rw [show (s.sub op).threw = none from h.not_threw hr] at ht
      cases ht
    · rintro error (hx | hx) <;> cases hx
    · rintro (hx | hx) <;> cases hx
  | _ =>
    rw [hcall] at hc
    cases hc

/-- The registration throws without being the one to start the source. -/
theorem inv_failing (h : Inv s) (hr : (s.sub op).call.registered = 0) (error : E) :
    Inv (s.setSub op { s.sub op with call := .failing error, threw := some error }) := by
  obtain ⟨hd, hcb, hcomp, -⟩ := h.nowhere hr
  have htok : (s.sub op).call.token = 0 ∧ (s.sub op).call.begun = false ∧
      (s.sub op).call ≠ .sourceStart := by
    revert hr
    cases (s.sub op).call <;> simp [Call.registered, Call.token, Call.begun]
  refine h.setSub ?_ ⟨by rintro ⟨⟩, fun hx => absurd hx htok.2.2⟩ ?_ (h.destroyed op) id ?_ ?_ ?_
    (.inr hcomp)
  · rw [hr, htok.1]
    rfl
  · exact fun ha => .inr (.inr ⟨ha, htok.2.1⟩)
  · intro error' ht
    cases ht
    exact ⟨hd, hcb, .inl rfl⟩
  · rintro error' (hx | hx)
    · cases hx
      rfl
    · cases hx
  · rintro (hx | hx) <;> cases hx

theorem inv_direct (h : Inv s) (hc : (s.sub op).call = .registering) (hp : s.phase = .done) :
    Inv (s.setCall op .direct) := by
  have hr : (s.sub op).call.registered = 0 := by
    rw [hc]
    rfl
  refine h.setSub (by rw [hc]; rfl) ⟨nofun, by rw [hc]; nofun⟩ ?_ (h.destroyed op) id ?_ ?_
    (fun _ => hp) (.inl rfl)
  · exact fun ha => .inr (.inr ⟨ha, by rw [hc]; rfl⟩)
  · intro error ht
    rw [show (s.sub op).threw = none from h.not_threw hr] at ht
    cases ht
  · rintro error (hx | hx) <;> cases hx

/-- The callback is queued. -/
theorem inv_push {call : Call E} (h : Inv s) (hc : (s.sub op).call = .registering)
    (hphase : (s.phase = .idle ∧ call = .sourceStart) ∨ (s.phase = .running ∧ call = .returned)) :
    Inv { s.setCall op call with phase := .running, onDone := s.onDone ++ [op] } := by
  have hr : (s.sub op).call.registered = 0 := by
    rw [hc]
    rfl
  obtain ⟨hd, hcb, hcomp, hdrop⟩ := h.nowhere hr
  have hnot := h.not_threw hr
  have hcall : call.token = 0 ∧ call.registered = 1 ∧ call.begun = false ∧ call ≠ .direct ∧
      call ≠ .delivering ∧ ∀ error, call ≠ .failing error ∧ call ≠ .deliveringError error := by
    rcases hphase with ⟨-, rfl⟩ | ⟨-, rfl⟩ <;> simp [Call.token, Call.registered, Call.begun]
  refine ⟨?_, ?_, ?_, ?_, ?_, ?_, ?_, ?_, ?_, h.starts, h.terminated⟩
  · intro o
    have ho := h.places o
    by_cases hoo : o = op
    · subst hoo
      simp only [State.places, State.setCall, State.setSub, Function.update_self, List.count_append,
        List.count_singleton_self, hr] at ho ⊢
      rw [hcall.1, hcall.2.1]
      omega
    · simp only [State.places, State.setCall, State.setSub, Function.update_of_ne hoo,
        List.count_append, List.count_singleton, beq_iff_eq, if_neg (Ne.symm hoo)] at ho ⊢
      omega
  · refine forall_update (P := fun o (y : Sub E) => y.active = false → y.destroyed = true ∨
      (y.call.begun = true ∨ s.source.delivers = some o) ∨ o ∈ s.completed.map Prod.fst)
      (fun o _ => h.inactive o) ?_
    intro ha
    rcases h.inactive op ha with hx | (hx | hx) | hx
    · exact .inl hx
    · rw [hc] at hx
      cases hx
    · exact .inr (.inl (.inr hx))
    · exact .inr (.inr hx)
  · exact forall_update (P := fun _ (y : Sub E) => y.destroyed = true → y.active = false)
      (fun o _ => h.destroyed o) (h.destroyed op)
  · exact forall_update (P := fun o (y : Sub E) => o ∈ s.dropped → y.destroyed = true)
      (fun o _ => h.dropped o) (h.dropped op)
  · refine forall_update (P := fun o (y : Sub E) => ∀ error, y.threw = some error → o ∉ s.onDone ++ [op] ∧
      o ∉ s.source.callbacks ∧ (y.call = .failing error ∨ y.call = .deliveringError error ∨
        y.call = .returned)) ?_ ?_
    · intro o ho error ht
      obtain ⟨h₁, h₂, h₃⟩ := h.threw o error ht
      exact ⟨by simp [h₁, ho], h₂, h₃⟩
    · intro error ht
      rw [show (s.sub op).threw = none from hnot] at ht
      cases ht
  · refine forall_update (P := fun _ (y : Sub E) => ∀ error, y.call = .failing error ∨
      y.call = .deliveringError error → y.threw = some error) (fun o _ => h.failing o) ?_
    rintro error (hx | hx)
    · exact absurd hx (hcall.2.2.2.2.2 error).1
    · exact absurd hx (hcall.2.2.2.2.2 error).2
  · refine forall_update (P := fun _ (y : Sub E) => y.call = .direct ∨ y.call = .delivering →
      Phase.running = .done) ?_ ?_
    · intro o _ hx
      have hdone := h.direct o hx
      rcases hphase with ⟨hp, -⟩ | ⟨hp, -⟩ <;> rw [hp] at hdone <;> cases hdone
    · rintro (hx | hx)
      · exact absurd hx hcall.2.2.2.1
      · exact absurd hx hcall.2.2.2.2.1
  -- nobody has received the cached result before the state is done
  · intro o c hm
    have hold := h.results o c hm
    have hsame : (({ s.setCall op call with phase := .running, onDone := s.onDone ++ [op] } :
        State V E).sub o).threw = (s.sub o).threw := by
      by_cases hoo : o = op
      · subst hoo
        simp
      · simp [Function.update_of_ne hoo]
    unfold Receives at hold ⊢
    rw [hsame]
    revert hold
    cases (s.sub o).threw with
    | none =>
      rintro ⟨hdone, -⟩
      rcases hphase with ⟨hp, -⟩ | ⟨hp, -⟩ <;> rw [hp] at hdone <;> cases hdone
    | some error => exact id
  · have hph := h.phased
    unfold Phased at hph ⊢
    refine ⟨by simp, ?_⟩
    -- the first consumer starts the source, and every later one waits
    rcases hphase with ⟨hp, rfl⟩ | ⟨hp, rfl⟩
    · rw [hp] at hph
      refine .inl ⟨hph.1, op, ?_⟩
      refine forall_update (P := fun o (y : Sub E) => y.call = .sourceStart ↔ o = op) ?_
        ⟨fun _ => rfl, fun _ => rfl⟩
      intro o ho
      exact ⟨fun hx => absurd hx (hph.2.2 o), fun hx => absurd hx ho⟩
    · rw [hp] at hph
      obtain ⟨-, hrun⟩ := hph
      rcases hrun with ⟨hs, first, hfirst⟩ | ⟨hs, hno⟩
      · refine .inl ⟨hs, first, ?_⟩
        refine forall_update (P := fun o (y : Sub E) => y.call = .sourceStart ↔ o = first)
          (fun o _ => hfirst o) ⟨by rintro ⟨⟩, ?_⟩
        rintro rfl
        have hx := (hfirst op).mpr rfl
        rw [hc] at hx
        cases hx
      · refine .inr ⟨hs, ?_⟩
        exact forall_update (P := fun _ (y : Sub E) => y.call ≠ .sourceStart) (fun o _ => hno o)
          (by rintro ⟨⟩)

/-- Before the state is done nobody has been completed with the cached result. -/
theorem Inv.results_undone {x : Sub E} {c : Completion V E} {o : OpId} (h : Inv s)
    (hp : s.phase ≠ .done) (hm : (o, c) ∈ s.completed)
    (hsame : s'.sub = Function.update s.sub op x) (hx : x.threw = (s.sub op).threw) :
    Receives s' o c := by
  have hold := h.results o c hm
  have hthrew : (s'.sub o).threw = (s.sub o).threw := by
    rw [hsame]
    by_cases hoo : o = op
    · subst hoo
      simpa using hx
    · simp [Function.update_of_ne hoo]
  unfold Receives at hold ⊢
  rw [hthrew]
  revert hold
  cases (s.sub o).threw with
  | none => exact fun hold => absurd hold.1 hp
  | some error => exact id

/-- The registration of the first subscriber throws, so the source is never started. -/
theorem inv_firstThrew (h : Inv s) (hc : (s.sub op).call = .registering) (hp : s.phase = .idle)
    (error : E) :
    Inv { s.setCall op .direct with
      phase := .done
      result := .error error
      firstThrew := some error } := by
  have hr : (s.sub op).call.registered = 0 := by
    rw [hc]
    rfl
  have hnot := h.not_threw hr
  have hph := h.phased
  unfold Phased at hph
  rw [hp] at hph
  obtain ⟨hsource, hdone, hno⟩ := hph
  refine ⟨?_, ?_, ?_, ?_, ?_, ?_, fun _ _ => rfl, ?_, ?_, h.starts, h.terminated⟩
  · intro o
    have ho := h.places o
    by_cases hoo : o = op
    · subst hoo
      simp only [State.places, State.setCall, State.setSub, Function.update_self, hc] at ho ⊢
      simp only [Call.token, Call.registered] at ho ⊢
      omega
    · simpa only [State.places, State.setCall, State.setSub, Function.update_of_ne hoo] using ho
  · refine forall_update (P := fun o (y : Sub E) => y.active = false → y.destroyed = true ∨
      (y.call.begun = true ∨ s.source.delivers = some o) ∨ o ∈ s.completed.map Prod.fst)
      (fun o _ => h.inactive o) ?_
    intro ha
    rcases h.inactive op ha with hx | (hx | hx) | hx
    · exact .inl hx
    · rw [hc] at hx
      cases hx
    · exact .inr (.inl (.inr hx))
    · exact .inr (.inr hx)
  · exact forall_update (P := fun _ (y : Sub E) => y.destroyed = true → y.active = false)
      (fun o _ => h.destroyed o) (h.destroyed op)
  · exact forall_update (P := fun o (y : Sub E) => o ∈ s.dropped → y.destroyed = true)
      (fun o _ => h.dropped o) (h.dropped op)
  · refine forall_update (P := fun o (y : Sub E) => ∀ error, y.threw = some error → o ∉ s.onDone ∧
      o ∉ s.source.callbacks ∧ (y.call = .failing error ∨ y.call = .deliveringError error ∨
        y.call = .returned)) (fun o _ => h.threw o) ?_
    intro error ht
    rw [show (s.sub op).threw = none from hnot] at ht
    cases ht
  · refine forall_update (P := fun _ (y : Sub E) => ∀ error, y.call = .failing error ∨
      y.call = .deliveringError error → y.threw = some error) (fun o _ => h.failing o) ?_
    rintro error (hx | hx) <;> cases hx
  · intro o c hm
    exact h.results_undone (by rw [hp]; rintro ⟨⟩) hm rfl rfl
  · exact ⟨rfl,
      forall_update (P := fun _ (y : Sub E) => y.call ≠ .sourceStart) (fun o _ => hno o) (by rintro ⟨⟩),
      .inl ⟨hsource, by rintro ⟨⟩, hdone⟩⟩

theorem inv_register (h : Inv s) (hc : (s.sub op).call = .registering) (throws : Option E) :
    Inv (s.register op throws) := by
  have hr : (s.sub op).call.registered = 0 := by
    rw [hc]
    rfl
  unfold State.register
  cases hp : s.phase with
  | done => exact inv_direct h hc hp
  | idle =>
    cases throws with
    | none => exact inv_push h hc (.inl ⟨hp, rfl⟩)
    | some error => exact inv_firstThrew h hc hp error
  | running =>
    cases throws with
    | none =>
      have hi : Inv { s.setCall op .returned with phase := .running, onDone := s.onDone ++ [op] } :=
        inv_push h hc (.inr ⟨hp, rfl⟩)
      rw [show ({ s.setCall op .returned with onDone := s.onDone ++ [op] } : State V E) =
        { s.setCall op .returned with phase := .running, onDone := s.onDone ++ [op] } by
          rw [← hp]; rfl]
      exact hi
    | some error => exact inv_failing h hr error

/-- The first subscriber starts the source. -/
theorem inv_sourceStart (h : Inv s) (hc : (s.sub op).call = .sourceStart) :
    Inv { s.setCall op .inSource with
      source := .running
      sourceStarts := s.sourceStarts + 1 } := by
  have hph := h.phased
  -- A pending start of the source belongs to the running phase, and only one subscriber has it.
  have hrun : s.phase = .running ∧ s.onDone ≠ [] ∧ s.source = .idle ∧
      ∀ o, (s.sub o).call = .sourceStart ↔ o = op := by
    unfold Phased at hph
    cases hp : s.phase with
    | idle =>
      rw [hp] at hph
      exact absurd hc (hph.2.2 op)
    | done =>
      rw [hp] at hph
      exact absurd hc (hph.2.1 op)
    | running =>
      rw [hp] at hph
      obtain ⟨hon, ⟨hs, first, hfirst⟩ | ⟨-, hno⟩⟩ := hph
      · rw [(hfirst op).mp hc]
        exact ⟨rfl, hon, hs, hfirst⟩
      · exact absurd hc (hno op)
  obtain ⟨hp, hon, hs, hfirst⟩ := hrun
  refine ⟨?_, ?_, ?_, ?_, ?_, ?_, ?_, ?_, ?_, ?_, h.terminated⟩
  · intro o
    have ho := h.places o
    by_cases hoo : o = op
    · subst hoo
      simp only [State.places, State.setCall, State.setSub, Function.update_self, hc, hs] at ho ⊢
      exact ho
    · simp only [State.places, State.setCall, State.setSub, Function.update_of_ne hoo, hs] at ho ⊢
      exact ho
  · refine forall_update (P := fun o (y : Sub E) => y.active = false → y.destroyed = true ∨
      (y.call.begun = true ∨ (Source.running : Source E).delivers = some o) ∨
        o ∈ s.completed.map Prod.fst) ?_ ?_
    · intro o _ ha
      have hi := h.inactive o ha
      unfold State.Begun at hi
      rwa [hs] at hi
    · intro ha
      have hi := h.inactive op ha
      unfold State.Begun at hi
      rw [hs, hc] at hi
      exact hi
  · exact forall_update (P := fun _ (y : Sub E) => y.destroyed = true → y.active = false)
      (fun o _ => h.destroyed o) (h.destroyed op)
  · exact forall_update (P := fun o (y : Sub E) => o ∈ s.dropped → y.destroyed = true)
      (fun o _ => h.dropped o) (h.dropped op)
  · refine forall_update (P := fun o (y : Sub E) => ∀ error, y.threw = some error → o ∉ s.onDone ∧
      o ∉ (Source.running : Source E).callbacks ∧ (y.call = .failing error ∨
        y.call = .deliveringError error ∨ y.call = .returned)) ?_ ?_
    · intro o _ error ht
      obtain ⟨h₁, -, h₃⟩ := h.threw o error ht
      exact ⟨h₁, by rintro ⟨⟩, h₃⟩
    · intro error ht
      obtain ⟨-, -, hx | hx | hx⟩ := h.threw op error ht <;> rw [hc] at hx <;> cases hx
  · refine forall_update (P := fun _ (y : Sub E) => ∀ error, y.call = .failing error ∨
      y.call = .deliveringError error → y.threw = some error) (fun o _ => h.failing o) ?_
    rintro error (hx | hx) <;> cases hx
  · refine forall_update (P := fun _ (y : Sub E) => y.call = .direct ∨ y.call = .delivering → s.phase = .done)
      (fun o _ => h.direct o) ?_
    rintro (hx | hx) <;> cases hx
  · intro o c hm
    exact h.results_undone (by rw [hp]; rintro ⟨⟩) hm rfl rfl
  · unfold Phased
    simp only [State.setCall, State.setSub, hp]
    refine ⟨hon, .inr ⟨.inl trivial, ?_⟩⟩
    refine forall_update (P := fun _ (y : Sub E) => y.call ≠ .sourceStart) ?_ (by rintro ⟨⟩)
    intro o ho hx
    exact ho ((hfirst o).mp hx)
  · show s.sourceStarts + 1 = 1
    rw [h.starts, hs]
    rfl

/-- A call that has delivered or has nothing to deliver returns. -/
theorem inv_returns (h : Inv s) (hc : (s.sub op).call = .inSource) :
    Inv (s.setCall op .returned) := by
  refine h.setSub (by rw [hc]; rfl) ⟨nofun, by rw [hc]; nofun⟩ ?_ (h.destroyed op) id ?_ ?_ ?_
    (.inl rfl)
  · exact fun ha => .inr (.inr ⟨ha, by rw [hc]; rfl⟩)
  · intro error ht
    obtain ⟨-, -, hx | hx | hx⟩ := h.threw op error ht <;> rw [hc] at hx <;> cases hx
  · rintro error (hx | hx) <;> cases hx
  · rintro (hx | hx) <;> cases hx

/-- The call wins the exchange. -/
theorem inv_begins {call : Call E} (h : Inv s)
    (hc : ((s.sub op).call = .direct ∧ call = .delivering) ∨
      ∃ error, (s.sub op).call = .failing error ∧ call = .deliveringError error) :
    Inv (s.setSub op { s.sub op with active := false, call := call }) := by
  rcases hc with ⟨hc, rfl⟩ | ⟨error, hc, rfl⟩
  · refine h.setSub (by rw [hc]; rfl) ⟨nofun, by rw [hc]; nofun⟩ (fun _ => .inr (.inl rfl))
      (fun _ => rfl) id ?_ ?_ ?_ (.inl rfl)
    · intro error ht
      obtain ⟨-, -, hx | hx | hx⟩ := h.threw op error ht <;> rw [hc] at hx <;> cases hx
    · rintro error (hx | hx) <;> cases hx
    · exact fun _ => h.direct op (.inl hc)
  · have hthrew := h.failing op error (.inl hc)
    obtain ⟨hd, hcb, -⟩ := h.threw op error hthrew
    refine h.setSub (by rw [hc]; rfl) ⟨nofun, by rw [hc]; nofun⟩ (fun _ => .inr (.inl rfl))
      (fun _ => rfl) id ?_ ?_ ?_ (.inl rfl)
    · intro error' ht
      have he : some error = some error' := hthrew.symm.trans ht
      cases he
      exact ⟨hd, hcb, .inr (.inl rfl)⟩
    · rintro error' (hx | hx)
      · cases hx
      · cases hx
        exact hthrew
    · rintro (hx | hx) <;> cases hx

theorem inv_destroy (h : Inv s) :
    Inv (s.setSub op { s.sub op with active := false, destroyed := true }) := by
  exact h.setSub rfl Iff.rfl (fun _ => .inl rfl) (fun _ => rfl) (fun _ => rfl)
    (h.threw op) (h.failing op) (h.direct op) (.inl rfl)

/-! ## The end of a delivery -/

/-- What the last step of a delivery to `op` leaves alone. -/
structure Ends (s s' : State V E) (op : OpId) : Prop where
  others : ∀ o, o ≠ op → s'.sub o = s.sub o
  own : s'.sub op = { s.sub op with call := (s'.sub op).call }
  call : (s'.sub op).call = (s.sub op).call ∨ (s'.sub op).call = .returned
  phase : s'.phase = s.phase
  cached : s'.cached = s.cached
  onDone : s'.onDone = s.onDone
  starts : s'.sourceStarts = s.sourceStarts ∧ s'.source.starts = s.source.starts
  terminated : s'.terminated = s.terminated
  callbacks : s'.source.callbacks ⊆ s.source.callbacks
  counts : ∀ o, o ≠ op → s'.source.callbacks.count o = s.source.callbacks.count o
  delivers : ∀ o, o ≠ op → s.source.delivers = some o → s'.source.delivers = some o
  phased : Phased s'
  /-- The place that the subscriber leaves. -/
  moves : s'.source.callbacks.count op + (s'.sub op).call.token + 1 =
    s.source.callbacks.count op + (s.sub op).call.token

theorem Ends.registered (he : Ends s s' op) (h : Inv s) :
    (s'.sub op).call.registered = (s.sub op).call.registered := by
  have hp := h.places op
  have hm := he.moves
  rcases he.call with hc | hc
  · rw [hc]
  · have hone : (s.sub op).call.registered = 1 := by
      have hle : (s.sub op).call.registered ≤ 1 := by
        cases (s.sub op).call <;> simp [Call.registered]
      unfold State.places at hp
      omega
    rw [hc, hone]
    rfl

theorem Ends.threw (he : Ends s s' op) (o : OpId) : (s'.sub o).threw = (s.sub o).threw := by
  by_cases hoo : o = op
  · subst hoo
    rw [he.own]
  · rw [he.others o hoo]

theorem Ends.destroyed (he : Ends s s' op) (o : OpId) :
    (s'.sub o).destroyed = (s.sub o).destroyed := by
  by_cases hoo : o = op
  · subst hoo
    rw [he.own]
  · rw [he.others o hoo]

theorem Ends.active (he : Ends s s' op) (o : OpId) : (s'.sub o).active = (s.sub o).active := by
  by_cases hoo : o = op
  · subst hoo
    rw [he.own]
  · rw [he.others o hoo]

theorem Ends.receives (he : Ends s s' op) {o : OpId} {c : Completion V E} (h : Receives s o c) :
    Receives s' o c := by
  unfold Receives at h ⊢
  rwa [he.threw, he.phase, he.cached]

theorem Ends.call_of (he : Ends s s' op) (o : OpId) :
    (s'.sub o).call = (s.sub o).call ∨ (s'.sub o).call = .returned := by
  by_cases hoo : o = op
  · subst hoo
    exact he.call
  · exact .inl (by rw [he.others o hoo])

theorem Inv.ends (h : Inv s) (he : Ends s s' op)
    (hend : (∃ c, s'.completed = s.completed ++ [(op, c)] ∧ s'.dropped = s.dropped ∧
        Receives s op c) ∨
      (s'.completed = s.completed ∧ s'.dropped = s.dropped ++ [op] ∧
        (s.sub op).destroyed = true)) : Inv s' := by
  refine ⟨?_, ?_, ?_, ?_, ?_, ?_, ?_, ?_, he.phased, ?_, ?_⟩
  -- the token that `op` gives up is its completion, or the call that was dropped
  · intro o
    have ho := h.places o
    by_cases hoo : o = op
    · subst hoo
      have hm := he.moves
      rw [he.registered h]
      unfold State.places at ho ⊢
      rcases hend with ⟨c, hcomp, hdrop, -⟩ | ⟨hcomp, hdrop, -⟩ <;>
        simp only [he.onDone, hcomp, hdrop, List.map_append, List.map_cons, List.map_nil,
          List.count_append, List.count_singleton_self] <;> omega
    · have hne := Ne.symm hoo
      unfold State.places at ho ⊢
      rcases hend with ⟨c, hcomp, hdrop, -⟩ | ⟨hcomp, hdrop, -⟩ <;>
        simp only [he.onDone, he.others o hoo, he.counts o hoo, hcomp, hdrop, List.map_append,
          List.map_cons, List.map_nil, List.count_append, List.count_singleton, beq_iff_eq,
          if_neg hne] <;> omega
  · intro o ha
    rw [he.active] at ha
    rw [he.destroyed]
    have hcomp : s.completed.map Prod.fst ⊆ s'.completed.map Prod.fst := by
      rcases hend with ⟨c, hcomp, -⟩ | ⟨hcomp, -⟩ <;> rw [hcomp]
      · rw [List.map_append]
        exact List.subset_append_left _ _
      · exact fun _ hm => hm
    by_cases hoo : o = op
    · subst hoo
      rcases hend with ⟨c, hc, -⟩ | ⟨-, -, hd⟩
      · refine .inr (.inr ?_)
        rw [hc]
        simp
      · exact .inl hd
    · rcases h.inactive o ha with hx | (hx | hx) | hx
      · exact .inl hx
      · refine .inr (.inl (.inl ?_))
        rw [he.others o hoo]
        exact hx
      · exact .inr (.inl (.inr (he.delivers o hoo hx)))
      · exact .inr (.inr (hcomp hx))
  · intro o hd
    rw [he.destroyed] at hd
    rw [he.active]
    exact h.destroyed o hd
  · intro o hm
    rw [he.destroyed]
    rcases hend with ⟨c, -, hdrop, -⟩ | ⟨-, hdrop, hd⟩
    · rw [hdrop] at hm
      exact h.dropped o hm
    · rw [hdrop] at hm
      rcases List.mem_append.mp hm with hm | hm
      · exact h.dropped o hm
      · rw [List.mem_singleton] at hm
        rw [hm]
        exact hd
  · intro o error ht
    rw [he.threw] at ht
    obtain ⟨h₁, h₂, h₃⟩ := h.threw o error ht
    rw [he.onDone]
    refine ⟨h₁, fun hm => h₂ (he.callbacks hm), ?_⟩
    rcases he.call_of o with hc | hc
    · rw [hc]
      exact h₃
    · exact .inr (.inr hc)
  · intro o error hf
    rw [he.threw]
    rcases he.call_of o with hc | hc
    · rw [hc] at hf
      exact h.failing o error hf
    · rw [hc] at hf
      rcases hf with hf | hf <;> cases hf
  · intro o hd
    rw [he.phase]
    rcases he.call_of o with hc | hc
    · rw [hc] at hd
      exact h.direct o hd
    · rw [hc] at hd
      rcases hd with hd | hd <;> cases hd
  · intro o c hm
    rcases hend with ⟨c', hcomp, -, hr⟩ | ⟨hcomp, -⟩
    · rw [hcomp] at hm
      rcases List.mem_append.mp hm with hm | hm
      · exact he.receives (h.results o c hm)
      · rw [List.mem_singleton] at hm
        cases hm
        exact he.receives hr
    · rw [hcomp] at hm
      exact he.receives (h.results o c hm)
  · rw [he.starts.1, he.starts.2]
    exact h.starts
  · rw [he.terminated]
    exact h.terminated

/-- The call of `start` makes its own delivery. -/
theorem ends_call {completed : List (OpId × Completion V E)} {dropped : List OpId} (h : Inv s)
    (ht : (s.sub op).call.token = 1) :
    Ends s { s.setCall op .returned with completed := completed, dropped := dropped } op := by
  have hne : (s.sub op).call ≠ .sourceStart := by
    intro hc
    rw [hc] at ht
    cases ht
  refine ⟨fun o ho => Function.update_of_ne ho _ _, ?_, .inr ?_, rfl, rfl, rfl, ⟨rfl, rfl⟩, rfl,
    fun _ hm => hm, fun _ _ => rfl, fun _ _ hd => hd, ?_, ?_⟩
  · simp
  · simp
  · refine h.phased.same rfl rfl rfl rfl rfl ?_
    exact forall_update (P := fun o (y : Sub E) => y.call = .sourceStart ↔ (s.sub o).call = .sourceStart)
      (fun _ _ => Iff.rfl) ⟨nofun, fun hc => absurd hc hne⟩
  · show s.source.callbacks.count op +
      (Function.update s.sub op { s.sub op with call := .returned } op).call.token + 1 = _
    rw [Function.update_self, ht]
    rfl

/-- The source is through with the callback of `op`. -/
theorem ends_callback {completed : List (OpId × Completion V E)} {dropped : List OpId}
    {callbacks : List OpId} (h : Inv s) (hcb : s.source.callbacks = op :: callbacks)
    (hs : s.source.calls = true) (hd : ∀ o, s.source.delivers = some o → o = op) :
    Ends s { s with source := .calling callbacks, completed := completed, dropped := dropped } op := by
  refine ⟨fun _ _ => rfl, rfl, .inl rfl, rfl, rfl, rfl, ⟨rfl, ?_⟩, rfl, ?_, ?_, ?_, ?_, ?_⟩
  · revert hs
    cases s.source <;> simp [Source.calls, Source.starts]
  · rw [hcb]
    exact List.subset_cons_self _ _
  · intro o ho
    rw [hcb, List.count_cons_of_ne (Ne.symm ho)]
    rfl
  · exact fun o ho ho' => absurd (hd o ho') ho
  · have hph := h.phased
    unfold Phased at hph ⊢
    revert hph
    dsimp only
    cases s.phase with
    | idle =>
      rintro ⟨hidle, -⟩
      rw [hidle] at hs
      cases hs
    | running =>
      rintro ⟨-, ⟨hidle, -⟩ | ⟨hidle | ⟨error, hidle⟩, -⟩⟩ <;> rw [hidle] at hs <;> cases hs
    | done =>
      rintro ⟨h₁, h₂, ⟨hidle, -⟩ | hidle | ⟨-, hon⟩⟩
      · rw [hidle] at hs
        cases hs
      · rw [hidle] at hs
        cases hs
      · exact ⟨h₁, h₂, .inr (.inr ⟨rfl, hon⟩)⟩
  · rw [hcb, List.count_cons_self]
    show callbacks.count op + (s.sub op).call.token + 1 =
      callbacks.count op + 1 + (s.sub op).call.token
    omega

theorem inv_drop (h : Inv s) (hact : (s.sub op).active = false)
    (hc : (s.sub op).call = .direct ∨ ∃ error, (s.sub op).call = .failing error) :
    Inv { s.setCall op .returned with dropped := s.dropped ++ [op] } := by
  have ht : (s.sub op).call.token = 1 ∧ (s.sub op).call.begun = false := by
    rcases hc with hc | ⟨error, hc⟩ <;> rw [hc] <;> exact ⟨rfl, rfl⟩
  have hb : ¬s.Begun op := by
    rintro (hb | hb)
    · rw [ht.2] at hb
      cases hb
    · exact h.not_delivers ht.1 hb
  have hcomp : op ∉ s.completed.map Prod.fst := h.not_completed (by omega)
  exact h.ends (ends_call h ht.1) (.inr ⟨rfl, rfl, h.destroyed_of_inactive hact hb hcomp⟩)

/-- The call completes the receiver. -/
theorem inv_receive {c : Completion V E} (h : Inv s)
    (hc : (s.sub op).call = .delivering ∨ ∃ error, (s.sub op).call = .deliveringError error)
    (hr : Receives s op c) :
    Inv { s.setCall op .returned with completed := s.completed ++ [(op, c)] } := by
  have ht : (s.sub op).call.token = 1 := by
    rcases hc with hc | ⟨error, hc⟩ <;> rw [hc] <;> rfl
  exact h.ends (ends_call h ht) (.inl ⟨c, rfl, rfl, hr⟩)

theorem Phased.cached (h : Phased s) (hp : s.phase = .done) : ∃ c, s.cached = some c := by
  unfold Phased at h
  rw [hp] at h
  exact Option.isSome_iff_exists.mp h.1

theorem inv_deliver (h : Inv s) (hc : (s.sub op).call = .delivering) :
    Inv ((s.setCall op .returned).deliverResult op) := by
  have hp := h.direct op (.inr hc)
  obtain ⟨c, hcached⟩ := h.phased.cached hp
  have hnot : (s.sub op).threw = none := by
    cases ht : (s.sub op).threw with
    | none => rfl
    | some error =>
      obtain ⟨-, -, hx | hx | hx⟩ := h.threw op error ht <;> rw [hc] at hx <;> cases hx
  have hr : Receives s op c := by
    unfold Receives
    rw [hnot]
    exact ⟨hp, hcached⟩
  unfold State.deliverResult
  rw [show (s.setCall op .returned).cached = some c from hcached]
  exact inv_receive h (.inl hc) hr

theorem inv_deliverError (h : Inv s) {error : E} (hc : (s.sub op).call = .deliveringError error) :
    Inv { s.setCall op .returned with completed := s.completed ++ [(op, .error error)] } := by
  refine inv_receive h (.inr ⟨error, hc⟩) ?_
  unfold Receives
  rw [h.failing op error (.inr hc)]

theorem inv_advance (h : Inv s) {throws : Option E} (hs : s.advance op throws = some s') :
    Inv s' := by
  unfold State.advance at hs
  dsimp only at hs
  split at hs
  · cases hs
  · cases hs
  · next hc =>
    cases hs
    exact inv_register h hc throws
  · next hc =>
    cases hs
    exact inv_sourceStart h hc
  · next hc =>
    cases hs
    exact inv_returns h hc
  · next hc =>
    split_ifs at hs with ha
    · cases hs
      exact inv_begins h (.inl ⟨hc, rfl⟩)
    · cases hs
      exact inv_drop h (by simpa using ha) (.inl hc)
  · next error hc =>
    split_ifs at hs with ha
    · cases hs
      exact inv_begins h (.inr ⟨error, hc, rfl⟩)
    · cases hs
      exact inv_drop h (by simpa using ha) (.inr ⟨error, hc⟩)
  · next hc =>
    cases hs
    exact inv_deliver h hc
  · next error hc =>
    cases hs
    exact inv_deliverError h hc

/-! ## The completion of the source -/

/-- The source has been started and has not yet stored its result. -/
theorem Inv.running (h : Inv s) (hs : s.source = .running ∨ ∃ error, s.source = .caught error) :
    s.phase = .running ∧ s.onDone ≠ [] ∧ ∀ o, (s.sub o).call ≠ .sourceStart := by
  have hph := h.phased
  unfold Phased at hph
  cases hp : s.phase with
  | idle =>
    rw [hp] at hph
    rcases hs with hs | ⟨error, hs⟩ <;> rw [hs] at hph <;> cases hph.1
  | running =>
    rw [hp] at hph
    obtain ⟨hon, ⟨hidle, -⟩ | ⟨-, hno⟩⟩ := hph
    · rcases hs with hs | ⟨error, hs⟩ <;> rw [hs] at hidle <;> cases hidle
    · exact ⟨rfl, hon, hno⟩
  | done =>
    rw [hp] at hph
    obtain ⟨-, -, ⟨hidle, -⟩ | hidle | ⟨hcalls, -⟩⟩ := hph
    · rcases hs with hs | ⟨error, hs⟩ <;> rw [hs] at hidle <;> cases hidle
    · rcases hs with hs | ⟨error, hs⟩ <;> rw [hs] at hidle <;> cases hidle
    · rcases hs with hs | ⟨error, hs⟩ <;> rw [hs] at hcalls <;> cases hcalls

/-- A step of the source before it has a result to share. -/
theorem inv_result {result : Result V E} {phase : Phase} {source : Source E} (h : Inv s)
    (hs : s.source = .running ∨ ∃ error, s.source = .caught error)
    (hnew : (phase = .done ∧ source = .notifying ∧
        ({ s with result := result } : State V E).cached.isSome = true) ∨
      (phase = s.phase ∧ ∃ error, source = .caught error)) :
    Inv { s with result := result, phase := phase, source := source } := by
  obtain ⟨hp, hon, hno⟩ := h.running hs
  have hold : s.source.callbacks = [] ∧ s.source.delivers = none ∧ s.source.starts = 1 := by
    rcases hs with hs | ⟨error, hs⟩ <;> rw [hs] <;> exact ⟨rfl, rfl, rfl⟩
  have hsource : source.callbacks = [] ∧ source.delivers = none ∧ source.starts = 1 := by
    rcases hnew with ⟨-, rfl, -⟩ | ⟨-, error, rfl⟩ <;> exact ⟨rfl, rfl, rfl⟩
  refine ⟨?_, ?_, h.destroyed, h.dropped, ?_, h.failing, ?_, ?_, ?_, ?_, h.terminated⟩
  · intro o
    have ho := h.places o
    unfold State.places at ho ⊢
    rw [hold.1] at ho
    dsimp only
    rwa [hsource.1]
  · intro o ha
    have hi := h.inactive o ha
    unfold State.Begun at hi ⊢
    rw [hold.2.1] at hi
    dsimp only
    rwa [hsource.2.1]
  · intro o error ht
    obtain ⟨h₁, -, h₃⟩ := h.threw o error ht
    refine ⟨h₁, ?_, h₃⟩
    dsimp only
    rw [hsource.1]
    nofun
  · intro o hd
    have hdone := h.direct o hd
    rw [hp] at hdone
    cases hdone
  · intro o c hm
    have hr := h.results o c hm
    unfold Receives at hr ⊢
    revert hr
    dsimp only
    cases (s.sub o).threw with
    | none =>
      rintro ⟨hdone, -⟩
      rw [hp] at hdone
      cases hdone
    | some error => exact id
  · unfold Phased
    rcases hnew with ⟨rfl, rfl, hc⟩ | ⟨rfl, error, rfl⟩
    · exact ⟨hc, hno, .inr (.inl rfl)⟩
    · dsimp only
      rw [hp]
      exact ⟨hon, .inr ⟨.inr ⟨error, rfl⟩, hno⟩⟩
  · show s.sourceStarts = source.starts
    rw [h.starts, hold.2.2, hsource.2.2]

theorem inv_complete (h : Inv s) {signal : Signal V E} (hs : s.source.isRunning = true)
    (hallow : s.signatures.allow signal = true) (throws : Option E) :
    Inv (s.complete signal throws) := by
  have hrun : s.source = .running := by
    revert hs
    cases s.source <;> simp [Source.isRunning]
  obtain ⟨hp, hon, -⟩ := h.running (.inl hrun)
  have howned : s.Owned := .inr (.inl hon)
  unfold State.complete
  rw [if_neg (not_not_intro howned)]
  cases signal with
  | value values =>
    cases throws with
    | none =>
      refine inv_result h (.inl hrun) (.inl ⟨rfl, rfl, ?_⟩)
      have hv : s.signatures.value = true := hallow
      simp [State.cached, hv]
    | some error => exact inv_result h (.inl hrun) (.inr ⟨rfl, error, rfl⟩)
  | error error =>
    exact inv_result h (.inl hrun) (.inl ⟨rfl, rfl, rfl⟩)
  | stopped =>
    refine inv_result h (.inl hrun) (.inl ⟨rfl, rfl, ?_⟩)
    have hv : s.signatures.stopped = true := hallow
    simp [State.cached, hv]

/-- While the source runs callbacks, the state is done and new callbacks are not queued. -/
theorem Inv.calling (h : Inv s) (hs : s.source.calls = true) :
    s.phase = .done ∧ s.onDone = [] := by
  have hph := h.phased
  unfold Phased at hph
  cases hp : s.phase with
  | idle =>
    rw [hp] at hph
    rw [hph.1] at hs
    cases hs
  | running =>
    rw [hp] at hph
    obtain ⟨-, ⟨hidle, -⟩ | ⟨hidle | ⟨error, hidle⟩, -⟩⟩ := hph <;> rw [hidle] at hs <;> cases hs
  | done =>
    rw [hp] at hph
    obtain ⟨-, -, ⟨hidle, -⟩ | hidle | ⟨-, hon⟩⟩ := hph
    · rw [hidle] at hs
      cases hs
    · rw [hidle] at hs
      cases hs
    · exact ⟨rfl, hon⟩

/-- The source goes on with the same callbacks before it. -/
theorem inv_source {source : Source E} {onDone : List OpId} (h : Inv s) (hp : s.phase = .done)
    (hs : s.source = .notifying ∨ s.source.calls = true) (hnew : source.calls = true)
    (hon : onDone = []) (hcb : ∀ o, source.callbacks.count o =
      s.onDone.count o + s.source.callbacks.count o)
    (hd : ∀ o, s.source.delivers = some o → source.delivers = some o) :
    Inv { s with onDone := onDone, source := source } := by
  have hone : s.source.starts = 1 ∧ source.starts = 1 := by
    constructor
    · rcases hs with hs | hs
      · rw [hs]
        rfl
      · revert hs
        cases s.source <;> simp [Source.calls, Source.starts]
    · revert hnew
      cases source <;> simp [Source.calls, Source.starts]
  refine ⟨?_, ?_, h.destroyed, h.dropped, ?_, h.failing, h.direct, ?_, ?_, ?_, h.terminated⟩
  · intro o
    have ho := h.places o
    unfold State.places at ho ⊢
    dsimp only
    rw [hon, hcb, List.count_nil]
    omega
  · intro o ha
    rcases h.inactive o ha with hx | (hx | hx) | hx
    · exact .inl hx
    · exact .inr (.inl (.inl hx))
    · exact .inr (.inl (.inr (hd o hx)))
    · exact .inr (.inr hx)
  · intro o error ht
    obtain ⟨h₁, h₂, h₃⟩ := h.threw o error ht
    dsimp only
    rw [hon]
    refine ⟨nofun, ?_, h₃⟩
    have hz : source.callbacks.count o = 0 := by
      rw [hcb, List.count_eq_zero.mpr h₁, List.count_eq_zero.mpr h₂]
    exact List.count_eq_zero.mp hz
  · intro o c hm
    have hr := h.results o c hm
    unfold Receives at hr ⊢
    exact hr
  · have hph := h.phased
    unfold Phased at hph ⊢
    dsimp only
    rw [hp] at hph ⊢
    exact ⟨hph.1, hph.2.1, .inr (.inr ⟨hnew, hon⟩)⟩
  · show s.sourceStarts = source.starts
    rw [h.starts, hone.1, hone.2]

theorem inv_callback (h : Inv s) {callbacks : List OpId} (hs : s.source = .locked op callbacks)
    (hact : (s.sub op).active = true) :
    Inv { s.setSub op { s.sub op with active := false } with source := .delivering op callbacks } := by
  obtain ⟨hp, hon⟩ := h.calling (by rw [hs]; rfl)
  have hi : Inv { s with source := .delivering op callbacks } :=
    inv_source h hp (.inr (by rw [hs]; rfl)) rfl hon
    (fun o => by rw [hs, hon]; simp [Source.callbacks]) (fun o hd => by rw [hs] at hd; cases hd)
  refine ⟨?_, ?_, ?_, ?_, ?_, ?_, ?_, ?_, ?_, hi.starts, hi.terminated⟩
  · intro o
    have ho := hi.places o
    by_cases hoo : o = op
    · subst hoo
      simpa [State.places] using ho
    · simpa [State.places, Function.update_of_ne hoo] using ho
  · refine forall_update (P := fun o (y : Sub E) => y.active = false → y.destroyed = true ∨
      (y.call.begun = true ∨ (Source.delivering op callbacks : Source E).delivers = some o) ∨
        o ∈ s.completed.map Prod.fst) (fun o _ => hi.inactive o) ?_
    exact fun _ => .inr (.inl (.inr rfl))
  · exact forall_update (P := fun _ (y : Sub E) => y.destroyed = true → y.active = false)
      (fun o _ => h.destroyed o) (fun _ => rfl)
  · exact forall_update (P := fun o (y : Sub E) => o ∈ s.dropped → y.destroyed = true)
      (fun o _ => h.dropped o) (h.dropped op)
  · exact forall_update (P := fun o (y : Sub E) => ∀ error, y.threw = some error → o ∉ s.onDone ∧
      o ∉ (Source.delivering op callbacks : Source E).callbacks ∧ (y.call = .failing error ∨
        y.call = .deliveringError error ∨ y.call = .returned)) (fun o _ => hi.threw o) (hi.threw op)
  · exact forall_update (P := fun _ (y : Sub E) => ∀ error, y.call = .failing error ∨
      y.call = .deliveringError error → y.threw = some error) (fun o _ => h.failing o) (h.failing op)
  · exact forall_update (P := fun _ (y : Sub E) => y.call = .direct ∨ y.call = .delivering → s.phase = .done)
      (fun o _ => h.direct o) (h.direct op)
  · intro o c hm
    have hr := hi.results o c hm
    have hsame : (({ s.setSub op { s.sub op with active := false } with
        source := .delivering op callbacks } : State V E).sub o).threw = (s.sub o).threw := by
      by_cases hoo : o = op
      · subst hoo
        simp
      · simp [Function.update_of_ne hoo]
    unfold Receives at hr ⊢
    rw [hsame]
    exact hr
  · exact hi.phased.same rfl rfl rfl rfl rfl (forall_update
      (P := fun o (y : Sub E) => y.call = .sourceStart ↔ (s.sub o).call = .sourceStart)
      (fun _ _ => Iff.rfl) Iff.rfl)

/-- The callback of `op` finds its subscriber gone or inactive. -/
theorem inv_dropCallback (h : Inv s) {callbacks : List OpId}
    (hs : s.source = .calling (op :: callbacks) ∨ s.source = .locked op callbacks)
    (hdead : (s.sub op).destroyed = true ∨ (s.sub op).active = false) :
    Inv { s with source := .calling callbacks, dropped := s.dropped ++ [op] } := by
  have hsource : s.source.callbacks = op :: callbacks ∧ s.source.calls = true ∧
      s.source.delivers = none := by
    rcases hs with hs | hs <;> rw [hs] <;> exact ⟨rfl, rfl, rfl⟩
  obtain ⟨hcb, hcalls, hdel⟩ := hsource
  have hm : op ∈ s.source.callbacks := by
    rw [hcb]
    exact List.mem_cons_self
  have hd : (s.sub op).destroyed = true := by
    rcases hdead with hd | ha
    · exact hd
    · refine h.destroyed_of_inactive ha ?_ (h.not_completed ?_)
      · rintro (hb | hb)
        · rw [h.not_begun hm] at hb
          cases hb
        · rw [hdel] at hb
          cases hb
      · have hpos := List.count_pos_iff.mpr hm
        omega
  exact h.ends (ends_callback h hcb hcalls (by rw [hdel]; nofun)) (.inr ⟨rfl, rfl, hd⟩)

theorem inv_deliverCallback (h : Inv s) {callbacks : List OpId}
    (hs : s.source = .delivering op callbacks) :
    Inv ({ s with source := .calling callbacks }.deliverResult op) := by
  obtain ⟨hp, -⟩ := h.calling (by rw [hs]; rfl)
  obtain ⟨c, hcached⟩ := h.phased.cached hp
  have hcb : s.source.callbacks = op :: callbacks := by rw [hs]; rfl
  have hnot : (s.sub op).threw = none := by
    cases ht : (s.sub op).threw with
    | none => rfl
    | some error =>
      obtain ⟨-, hno, -⟩ := h.threw op error ht
      rw [hcb] at hno
      exact absurd List.mem_cons_self hno
  have hr : Receives s op c := by
    unfold Receives
    rw [hnot]
    exact ⟨hp, hcached⟩
  unfold State.deliverResult
  rw [show ({ s with source := .calling callbacks } : State V E).cached = some c from hcached]
  refine h.ends (ends_callback h hcb (by rw [hs]; rfl) ?_) (.inl ⟨c, rfl, rfl, hr⟩)
  intro o ho
  rw [hs] at ho
  cases ho
  rfl

theorem inv_notify (h : Inv s) (hs : s.notify = some s') : Inv s' := by
  unfold State.notify at hs
  split at hs
  · next error hsource =>
    cases hs
    exact inv_result h (.inr ⟨error, hsource⟩) (.inl ⟨rfl, rfl, rfl⟩)
  · next hsource =>
    cases hs
    have hp : s.phase = .done := by
      have hph := h.phased
      unfold Phased at hph
      cases hp : s.phase with
      | done => rfl
      | idle =>
        rw [hp, hsource] at hph
        cases hph.1
      | running =>
        rw [hp, hsource] at hph
        obtain ⟨-, ⟨hx, -⟩ | ⟨hx | ⟨error, hx⟩, -⟩⟩ := hph <;> cases hx
    refine inv_source h hp (.inl hsource) rfl rfl ?_ ?_
    · intro o
      rw [hsource]
      rfl
    · intro o hd
      rw [hsource] at hd
      cases hd
  · next op callbacks hsource =>
    obtain ⟨hp, hon⟩ := h.calling (by rw [hsource]; rfl)
    dsimp only at hs
    split_ifs at hs with hpin
    · cases hs
      refine inv_source h hp (.inr (by rw [hsource]; rfl)) rfl hon ?_ ?_
      · intro o
        rw [hsource, hon]
        simp [Source.callbacks]
      · intro o hd
        rw [hsource] at hd
        cases hd
    · cases hs
      rw [not_or] at hpin
      exact inv_dropCallback h (.inl hsource) (.inl (by simpa using hpin.1))
  · next op callbacks hsource =>
    dsimp only at hs
    split_ifs at hs with hact
    · cases hs
      exact inv_callback h hsource hact
    · cases hs
      exact inv_dropCallback h (.inr hsource) (.inr (by simpa using hact))
  · next op callbacks hsource =>
    cases hs
    exact inv_deliverCallback h hsource
  · cases hs

theorem inv_step (h : Inv s) {l : Label V E} (hs : step s l = some s') : Inv s' := by
  cases l with
  | connect op =>
    simp only [step, Option.ite_none_right_eq_some, Option.some.injEq] at hs
    obtain ⟨-, rfl⟩ := hs
    exact { h with }
  | dropSender =>
    cases hs
    exact { h with }
  | start op throws =>
    simp only [step, Option.ite_none_right_eq_some] at hs
    obtain ⟨⟨-, hc, -⟩, hs⟩ := hs
    cases throws with
    | none =>
      cases hs
      exact inv_start h hc
    | some error =>
      cases hs
      refine inv_failing h ?_ error
      revert hc
      cases (s.sub op).call <;> simp [Call.isConnected, Call.registered]
  | advance op throws => exact inv_advance h hs
  | destroy op =>
    simp only [step, Option.ite_none_right_eq_some, Option.some.injEq] at hs
    obtain ⟨-, rfl⟩ := hs
    exact inv_destroy h
  | complete signal throws =>
    simp only [step, Option.ite_none_right_eq_some, Option.some.injEq] at hs
    obtain ⟨⟨hrun, hallow⟩, rfl⟩ := hs
    exact inv_complete h hrun hallow throws
  | notify => exact inv_notify h hs

theorem reachable_inv (h : Reachable step Initial s) : Inv s := by
  refine Reachable.preserves ?_ (fun _ _ _ hi hs => inv_step hi hs) h
  rintro _ ⟨signatures, rfl⟩
  exact inv_initial signatures

end CCForge.Split
