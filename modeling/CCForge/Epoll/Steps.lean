import CCForge.Epoll.Invariants

/-!
# The steps keep the invariant

Most steps concern one record and leave the registry alone. The steps that come with a section of
the registry follow what the section takes out of the slots.
-/

namespace CCForge.Epoll

variable {s s' : State} {place place' : Record → RecordPlace} {t : ThreadId} {f : Frame}
  {old new rest : List Frame} {record : Record} {o' : Op} {p' : RecordPlace} {c : Choice}

/-! ## Steps of one record -/

theorem setOp_self (s : State) (record : Record) : s.setOp record (s.ops record) = s := by
  rw [State.setOp, Function.update_eq_self]

theorem grows_update (hg : Grows (s.ops record) (place record) o' p') (other : Record) :
    Grows (s.ops other) (place other) (Function.update s.ops record o' other)
      (Function.update place record p' other) := by
  by_cases he : other = record
  · subst he
    rwa [Function.update_self, Function.update_self]
  · rw [Function.update_of_ne he, Function.update_of_ne he]
    exact Grows.refl _ _

/-- A step that changes one record and not the registry. -/
theorem Inv.single (h : Inv s place) (old new : List Frame) (hst : s.stack t = old ++ rest)
    (hrest : ∀ f ∈ rest, f.calling = true) (htail : ∀ f ∈ new.tail, f.calling = true)
    (hcarries : Carries (Function.update (loads s.stack) t ((new ++ rest).flatMap Frame.load))
      (Function.update place record p'))
    (hslot : p' = .elsewhere .slot ↔ place record = .elsewhere .slot)
    (hop : OpOk o' p') (hgrows : Grows (s.ops record) (place record) o' p')
    (hnew : ∀ f ∈ new, FrameOk (Function.update s.ops record o') (Function.update place record p') f)
    (hruns : ∀ other, .callback other false ∈ new → other = record ∧ o'.callback = .running t)
    (hothers : ∀ u, u ≠ t → (s.ops record).callback = .running u → o'.callback = .running u)
    (hrunning : ∀ u, o'.callback = .running u → (u = t ∧ ∃ requested, .callback record requested ∈ new) ∨
      ((s.ops record).callback = .running u ∧ (u = t → ∀ requested, .callback record requested ∉ old)))
    (hold : ∀ other, other ≠ record → (∀ requested, .callback other requested ∉ old) ∧
      ∀ f ∈ old, f.cancels other = false)
    (hcancels : o'.stopRequested = true → p' = .elsewhere .slot →
      (∃ f ∈ new, f.cancels record = true) ∨
      ((s.ops record).stopRequested = true ∧ ∀ f ∈ old, f.cancels record = false)) :
    Inv ((s.setOp record o').setStack t (new ++ rest)) (Function.update place record p') := by
  have hreplaces : Replaces s ((s.setOp record o').setStack t (new ++ rest)) t old new rest :=
    ⟨hst, rfl, hrest, htail⟩
  refine h.step hreplaces h.sound h.stopped (fun other => ?_) hcarries (fun other => ?_)
    (grows_update hgrows) hnew (fun other hm => ?_) (fun other u hu hr => ?_) (fun other u hr => ?_)
    fun other hs hp => ?_
  · by_cases he : other = record
    · subst he
      rw [Function.update_self, hslot]
      exact h.slot other
    · rw [Function.update_of_ne he]
      exact h.slot other
  · by_cases he : other = record
    · subst he
      simpa [State.setStack, State.setOp] using hop
    · simpa [State.setStack, State.setOp, Function.update_of_ne he] using h.ops other
  · obtain ⟨rfl, hcb⟩ := hruns other hm
    simpa [State.setStack, State.setOp] using hcb
  · by_cases he : other = record
    · subst he
      simpa [State.setStack, State.setOp] using hothers u hu hr
    · simpa [State.setStack, State.setOp, Function.update_of_ne he] using hr
  · by_cases he : other = record
    · subst he
      exact hrunning u (by simpa [State.setStack, State.setOp] using hr)
    · exact .inr ⟨by simpa [State.setStack, State.setOp, Function.update_of_ne he] using hr,
        fun _ => (hold other he).1⟩
  · by_cases he : other = record
    · subst he
      rw [Function.update_self] at hp
      have hcase := hcancels (by simpa [State.setStack, State.setOp] using hs) hp
      exact hcase.imp_right fun hand => ⟨hand.1, hslot.mp hp, hand.2⟩
    · rw [Function.update_of_ne he] at hp
      exact .inr ⟨by simpa [State.setStack, State.setOp, Function.update_of_ne he] using hs, hp,
        (hold other he).2⟩

/-- Neither a frame of a callback, nor one that looks for a record. -/
def Frame.quiet : Frame → Bool
  | .start _ .recheck => false
  | .callback _ _ => false
  | .cancelRecord _ => false
  | _ => true

theorem quiet_callback (hq : ∀ f ∈ old, f.quiet = true) (other : Record) (requested : Bool) :
    .callback other requested ∉ old := by
  intro hm
  cases hq _ hm

theorem quiet_cancels (hf : f.quiet = true) (other : Record) : f.cancels other = false := by
  cases f with
  | start record stage => cases stage <;> first | rfl | cases hf
  | cancelRecord record => cases hf
  | _ => rfl

/-- A step of one record that has nothing to do with its stop. -/
theorem Inv.quiet (h : Inv s place) (old new : List Frame) (hst : s.stack t = old ++ rest)
    (hrest : ∀ f ∈ rest, f.calling = true) (htail : ∀ f ∈ new.tail, f.calling = true)
    (hqold : ∀ f ∈ old, f.quiet = true) (hqnew : ∀ f ∈ new, f.quiet = true)
    (hcarries : Carries (Function.update (loads s.stack) t ((new ++ rest).flatMap Frame.load))
      (Function.update place record p'))
    (hslot : p' = .elsewhere .slot ↔ place record = .elsewhere .slot)
    (hop : OpOk o' p') (hgrows : Grows (s.ops record) (place record) o' p')
    (hnew : ∀ f ∈ new, FrameOk (Function.update s.ops record o') (Function.update place record p') f)
    (hcallback : o'.callback = (s.ops record).callback ∨
      ((∀ u, o'.callback ≠ .running u) ∧ ∀ u, u ≠ t → (s.ops record).callback ≠ .running u))
    (hstop : o'.stopRequested = (s.ops record).stopRequested) :
    Inv ((s.setOp record o').setStack t (new ++ rest)) (Function.update place record p') := by
  refine h.single old new hst hrest htail hcarries hslot hop hgrows hnew
    (fun other hm => absurd hm (quiet_callback hqnew other false)) (fun u hu hr => ?_)
    (fun u hr => ?_)
    (fun other _ => ⟨quiet_callback hqold other, fun f hf => quiet_cancels (hqold f hf) other⟩)
    fun hs _ => .inr ⟨hstop ▸ hs, fun f hf => quiet_cancels (hqold f hf) record⟩
  · rcases hcallback with he | ⟨-, hn⟩
    · rw [he, hr]
    · exact absurd hr (hn u hu)
  · rcases hcallback with he | ⟨hn, -⟩
    · exact .inr ⟨he ▸ hr, fun _ => quiet_callback hqold record⟩
    · exact absurd hr (hn u)

theorem Inv.tail (h : Inv s place) (hst : s.stack t = f :: rest) : ∀ g ∈ rest, g.calling = true := by
  have hcalling := h.calling t
  rwa [hst] at hcalling

/-- The record that the innermost frame carries. -/
theorem Inv.carried (h : Inv s place) {stage : Stage} (hst : s.stack t = f :: rest)
    (hf : f.load = [(record, stage)]) : place record = .carried t stage := by
  refine (h.carries.mem t record stage).mp ?_
  rw [loads_cons hst, hf]
  exact List.mem_cons_self

/-- The innermost frame takes its record to another stage. -/
theorem Inv.carries_advance (h : Inv s place) {stage : Stage} (hst : s.stack t = f :: rest)
    (hf : f.load = [(record, stage)]) {stage' : Stage} (hnew : new.flatMap Frame.load = [(record, stage')]) :
    Carries (Function.update (loads s.stack) t ((new ++ rest).flatMap Frame.load))
      (Function.update place record (.carried t stage')) := by
  have hload : loads s.stack t = (record, stage) :: rest.flatMap Frame.load := by
    rw [loads_cons hst, hf]
    rfl
  rw [List.flatMap_append, hnew]
  exact h.carries.advance hload stage'

/-- The innermost frame puts its record down. -/
theorem Inv.carries_release (h : Inv s place) {stage : Stage} (hst : s.stack t = f :: rest)
    (hf : f.load = [(record, stage)]) (hnew : new.flatMap Frame.load = []) (e : Where) :
    Carries (Function.update (loads s.stack) t ((new ++ rest).flatMap Frame.load))
      (Function.update place record (.elsewhere e)) := by
  have hload : loads s.stack t = (record, stage) :: rest.flatMap Frame.load := by
    rw [loads_cons hst, hf]
    rfl
  rw [List.flatMap_append, hnew]
  exact h.carries.release hload e

/-- The frames change, and what they carry does not. -/
theorem Inv.carries_same (h : Inv s place) (old new : List Frame) (hst : s.stack t = old ++ rest)
    (hnew : new.flatMap Frame.load = old.flatMap Frame.load) (record : Record) :
    Carries (Function.update (loads s.stack) t ((new ++ rest).flatMap Frame.load))
      (Function.update place record (place record)) := by
  rw [Function.update_eq_self]
  refine h.carries.congr ?_
  rw [List.flatMap_append, hnew, ← List.flatMap_append, ← hst]
  exact Function.update_eq_self t (loads s.stack)

/-- A record comes from one stage to another, with new fields. -/
theorem Inv.advance (h : Inv s place) (new : List Frame) {stage : Stage} (stage' : Stage)
    (hst : s.stack t = f :: rest)
    (hf : f.load = [(record, stage)]) (hq : f.quiet = true) (htail : ∀ g ∈ new.tail, g.calling = true)
    (hqnew : ∀ g ∈ new, g.quiet = true) (hload : new.flatMap Frame.load = [(record, stage')])
    (hop : OpOk o' (.carried t stage'))
    (hgrows : Grows (s.ops record) (place record) o' (.carried t stage'))
    (hnew : ∀ g ∈ new, FrameOk (Function.update s.ops record o')
      (Function.update place record (.carried t stage')) g)
    (hcallback : o'.callback = (s.ops record).callback ∨
      ((∀ u, o'.callback ≠ .running u) ∧ ∀ u, u ≠ t → (s.ops record).callback ≠ .running u))
    (hstop : o'.stopRequested = (s.ops record).stopRequested) :
    ∃ place', Inv ((s.setOp record o').setStack t (new ++ rest)) place' := by
  have hplace := h.carried hst hf
  refine ⟨_, h.quiet [f] new hst (h.tail hst) htail (by simpa using hq) hqnew
    (h.carries_advance hst hf hload) ?_ hop hgrows hnew hcallback hstop⟩
  rw [hplace]
  constructor <;> exact fun heq => by cases heq

/-- The same, where the fields stay. -/
theorem Inv.pass (h : Inv s place) (new : List Frame) {stage : Stage} (stage' : Stage)
    (hst : s.stack t = f :: rest)
    (hf : f.load = [(record, stage)]) (hq : f.quiet = true) (htail : ∀ g ∈ new.tail, g.calling = true)
    (hqnew : ∀ g ∈ new, g.quiet = true) (hload : new.flatMap Frame.load = [(record, stage')])
    (hop : OpOk (s.ops record) (.carried t stage'))
    (hrank : rank (place record) ≤ rank (.carried t stage'))
    (hnew : ∀ g ∈ new, FrameOk s.ops (Function.update place record (.carried t stage')) g) :
    ∃ place', Inv (s.setStack t (new ++ rest)) place' := by
  have hadvance := h.advance new stage' hst hf hq htail hqnew hload hop ⟨hrank, id, id, id⟩
    (by rwa [Function.update_eq_self]) (.inl rfl) rfl
  rwa [setOp_self] at hadvance

/-! ## The start -/

theorem OpOk.claim_of_starting {stage : StartStage} {o : Op} (h : OpOk o (.carried t (.starting stage))) :
    OpOk o (.carried t (.completing .claim)) := by
  obtain ⟨hstarted, -, hdone, hdelivered, hcompletions, habandoned, -⟩ := h.stage
  exact { h with
    stage := ⟨hstarted, by rw [hdone, habandoned], hdelivered, hcompletions⟩
    destroyer := fun _ _ _ heq => by cases heq }

/-- The start completes the record. -/
theorem Inv.start_completes (h : Inv s place) {stage : StartStage} (completion : Completion)
    (hst : s.stack t = .start record stage :: rest)
    (hf : Frame.load (.start record stage) = [(record, .starting stage)])
    (hq : Frame.quiet (.start record stage) = true) :
    ∃ place', Inv (s.setStack t
      (.complete record completion .claim :: .start record .returning :: rest)) place' := by
  have hplace := h.carried hst hf
  have hop := h.ops record
  rw [hplace] at hop
  refine h.pass [.complete record completion .claim, .start record .returning] (.completing .claim)
    hst hf hq ?_ ?_ rfl hop.claim_of_starting ?_ ?_
  · simp [Frame.calling]
  · simp [Frame.quiet]
  · rw [hplace]
    simp [rank]
  · simp [FrameOk, rank]

theorem Inv.step_check (h : Inv s place) (hst : s.stack t = .start record .check :: rest)
    (hs : s.advanceStart t record .check rest c = some s') : ∃ place', Inv s' place' := by
  have hplace := h.carried hst rfl
  have hop := h.ops record
  rw [hplace] at hop
  unfold State.advanceStart at hs
  dsimp only at hs
  split at hs
  · cases hs
    exact h.start_completes .stopped hst rfl rfl
  · cases hs
    obtain ⟨hstarted, hreturned, hdone, hdelivered, hcompletions, habandoned, hdestroying, -, hcallback⟩ :=
      hop.stage
    have hstage : OpOk (s.ops record) (.carried t (.starting .install)) :=
      { hop with
        stage := ⟨hstarted, hreturned, hdone, hdelivered, hcompletions, habandoned, hdestroying,
          nofun, fun _ => hcallback nofun⟩
        destroyer := fun _ _ _ heq => by cases heq }
    refine h.pass [.start record .install] (.starting .install) hst rfl rfl ?_ ?_ rfl hstage ?_ ?_
    · simp
    · simp [Frame.quiet]
    · rw [hplace]
      simp [rank]
    · simp [FrameOk]

/-- The callback is there when the start comes to its section, if the token can be stopped. -/
theorem OpOk.locked_of_install {o : Op} (h : OpOk o (.carried t (.starting .install)))
    (callback : Callback) (hcallback : o.stopPossible = true → callback ≠ .absent)
    (hspent : callback ≠ .spent) :
    OpOk { o with callback := callback } (.carried t (.starting .locked)) := by
  obtain ⟨hstarted, hreturned, hdone, hdelivered, hcompletions, habandoned, hdestroying, -⟩ := h.stage
  exact
    { stage := ⟨hstarted, hreturned, hdone, hdelivered, hcompletions, habandoned, hdestroying,
        fun _ => hcallback, fun hne => absurd rfl hne⟩
      token := h.token
      spent := fun heq => absurd heq hspent
      abandoned := h.abandoned
      destroyed := fun hd => by
        have hd' := (h.destroyed hd).1
        rw [hdestroying] at hd'
        cases hd'
      destroyer := fun _ _ _ heq => by cases heq }

theorem Inv.step_install (h : Inv s place) (hst : s.stack t = .start record .install :: rest)
    (hs : s.advanceStart t record .install rest c = some s') : ∃ place', Inv s' place' := by
  have hplace := h.carried hst rfl
  have hop := h.ops record
  rw [hplace] at hop
  have hdone : (s.ops record).done = false := hop.stage.2.2.1
  have habsent : (s.ops record).callback = .absent := hop.stage.2.2.2.2.2.2.2.2 (by rintro ⟨⟩)
  have hrank : rank (place record) ≤ 1 := by
    rw [hplace]
    simp [rank]
  unfold State.advanceStart at hs
  dsimp only at hs
  rw [if_neg (by simp [hdone])] at hs
  split at hs
  · cases hs
    exact h.start_completes .stopped hst rfl rfl
  split at hs
  · split at hs
    · -- The callback is called at once.
      cases hs
      have hnew := hop.locked_of_install (.running t) (fun _ => by simp) (by simp)
      refine ⟨_, h.single [.start record .install] [.callback record false, .start record .locked] hst
        (h.tail hst) ?_ (h.carries_advance hst rfl rfl) ?_ hnew ⟨hrank, id, id, id⟩ ?_ ?_ ?_ ?_ ?_ ?_⟩
      · simp [Frame.calling]
      · rw [hplace]
        constructor <;> exact fun heq => by cases heq
      · simp [FrameOk]
      · simp
      · rw [habsent]
        exact fun _ _ heq => by cases heq
      · intro u hu
        cases hu
        exact .inl ⟨rfl, false, by simp⟩
      · simp [Frame.cancels]
      · exact fun _ heq => by cases heq
    · cases hs
      have hnew := hop.locked_of_install .armed (fun _ => by simp) (by simp)
      refine h.advance [.start record .locked] (.starting .locked) hst rfl rfl ?_ ?_ rfl hnew
        ⟨hrank, id, id, id⟩ ?_ (.inr ⟨by rintro _ ⟨⟩, ?_⟩) rfl
      · simp
      · simp [Frame.quiet]
      · simp [FrameOk]
      · rw [habsent]
        rintro _ _ ⟨⟩
  · next hpossible =>
    cases hs
    have hnew := hop.locked_of_install (s.ops record).callback
      (fun hp => absurd hp hpossible) (by rw [habsent]; rintro ⟨⟩)
    refine h.pass [.start record .locked] (.starting .locked) hst rfl rfl ?_ ?_ rfl hnew hrank ?_
    · simp
    · simp [Frame.quiet]
    · simp [FrameOk]

theorem Inv.step_recheck (h : Inv s place) (hst : s.stack t = .start record .recheck :: rest)
    (hs : s.advanceStart t record .recheck rest c = some s') : ∃ place', Inv s' place' := by
  have hframe := h.frames t (.start record .recheck) (by rw [hst]; exact List.mem_cons_self)
  have hsame := fun new hnew => h.carries_same [.start record .recheck] new hst hnew record
  unfold State.advanceStart at hs
  dsimp only at hs
  split at hs
  · cases hs
    have hsingle := h.single [.start record .recheck] [.cancelRecord record, .start record .returning]
      hst (h.tail hst) (by simp [Frame.calling]) (hsame _ rfl) Iff.rfl (h.ops record) (Grows.refl _ _)
    rw [setOp_self] at hsingle
    refine ⟨_, hsingle ?_ ?_ ?_ ?_ ?_ ?_⟩
    · simpa [FrameOk] using hframe
    · simp
    · exact fun _ _ hu => hu
    · exact fun _ hu => .inr ⟨hu, by simp⟩
    · exact fun other hne => ⟨by simp, by simp [Frame.cancels, hne.symm]⟩
    · exact fun _ _ => .inl ⟨.cancelRecord record, by simp, by simp [Frame.cancels]⟩
  · next hnot =>
    cases hs
    have hsingle := h.single [.start record .recheck] [.start record .returning]
      hst (h.tail hst) (by simp) (hsame _ rfl) Iff.rfl (h.ops record) (Grows.refl _ _)
    rw [setOp_self] at hsingle
    refine ⟨_, hsingle ?_ ?_ ?_ ?_ ?_ ?_⟩
    · simpa [FrameOk] using hframe
    · simp
    · exact fun _ _ hu => hu
    · exact fun _ hu => .inr ⟨hu, by simp⟩
    · exact fun other hne => ⟨by simp, by simp [Frame.cancels, hne.symm]⟩
    · exact fun hstop => absurd hstop hnot

/-- A place past the start, whatever comes back from it. -/
theorem OpOk.returned {o : Op} (h : OpOk o p') (hrank : 2 ≤ rank p') :
    OpOk { o with startReturned := true } p' := by
  refine { h with stage := ?_ }
  have hstage := h.stage
  cases p' with
  | carried u stage =>
    cases stage with
    | starting _ => simp [rank] at hrank
    | queued => exact hstage
    | completing stage => cases stage <;> exact hstage
  | elsewhere e =>
    cases e with
    | fresh => simp [rank] at hrank
    | slot => exact hstage
    | gone => exact hstage

theorem Inv.step_returning (h : Inv s place) (hst : s.stack t = .start record .returning :: rest)
    (hs : s.advanceStart t record .returning rest c = some s') : ∃ place', Inv s' place' := by
  have hframe := h.frames t (.start record .returning) (by rw [hst]; exact List.mem_cons_self)
  have hsame := h.carries_same [.start record .returning] [] hst rfl record
  cases hs
  exact ⟨_, h.quiet [.start record .returning] [] hst (h.tail hst) (by simp) (by simp [Frame.quiet])
    (by simp) hsame Iff.rfl ((h.ops record).returned hframe) ⟨le_rfl, id, id, id⟩ (by simp) (.inl rfl) rfl⟩

/-! ## The callback -/

/-- A callback that is there comes to another state. -/
theorem OpOk.set_callback {o : Op} {callback : Callback} (h : OpOk o p') (hthere : o.callback ≠ .absent)
    (hcallback : callback ≠ .absent) (hspent : callback = .spent → o.stopRequested = true) :
    OpOk { o with callback := callback } p' := by
  have hstage := h.stage
  refine ⟨?_, h.token, hspent, h.abandoned, fun hd => absurd (h.destroyed hd).2.1 hthere, h.destroyer⟩
  cases p' with
  | carried u stage =>
    cases stage with
    | starting stage =>
      obtain ⟨h1, h2, h3, h4, h5, h6, h7, -, h9⟩ := hstage
      exact ⟨h1, h2, h3, h4, h5, h6, h7, fun _ _ => hcallback, fun hne => absurd (h9 hne) hthere⟩
    | queued => exact hstage
    | completing stage =>
      cases stage with
      | claim => exact hstage
      | teardown won => exact hstage
      | receiver => exact absurd hstage.2.2.2.2.1 hthere
      | deliver => exact absurd hstage.2.2.2.1 hthere
  | elsewhere e =>
    cases e with
    | fresh => exact absurd hstage.2.2.2.2.1 hthere
    | slot =>
      obtain ⟨h1, h2, h3, h4, h5, -⟩ := hstage
      exact ⟨h1, h2, h3, h4, h5, fun _ => hcallback⟩
    | gone =>
      obtain ⟨h1, h2, h3, h4, h5⟩ := hstage
      exact ⟨h1, h2, h3, fun hd => absurd (h4 hd) hthere, h5⟩

/-- User code runs on top of frames that are calling. -/
theorem Inv.at_user (h : Inv s place) (hu : s.atUser t = true) : ∀ f ∈ s.stack t, f.calling = true := by
  have hcalling := h.calling t
  unfold State.atUser at hu
  split at hu
  · next hst => simp [hst]
  · next hst =>
    rw [hst] at hcalling ⊢
    intro f hf
    rcases List.mem_cons.mp hf with rfl | hf
    · rfl
    · exact hcalling f hf
  · cases hu

theorem Inv.run_callback (h : Inv s place) (hu : s.atUser t = true)
    (hs : s.call t (.runCallback record) = some s') : ∃ place', Inv s' place' := by
  simp only [State.call, Option.ite_none_right_eq_some, Option.some.injEq] at hs
  obtain ⟨⟨-, harmed⟩, rfl⟩ := hs
  have hsame := h.carries_same [] [.callback record false] (t := t) rfl rfl record
  refine ⟨_, h.single [] [.callback record false] rfl (h.at_user hu) (by simp) hsame Iff.rfl
    ((h.ops record).set_callback (by rw [harmed]; nofun) nofun nofun) ⟨le_rfl, id, id, id⟩ ?_ ?_ ?_ ?_ ?_ ?_⟩
  · simp [FrameOk]
  · simp
  · rw [harmed]
    exact fun _ _ heq => by cases heq
  · intro u hr
    cases hr
    exact .inl ⟨rfl, false, by simp⟩
  · simp
  · exact fun hstop _ => .inr ⟨hstop, by simp⟩

theorem OpOk.stop_requested {o : Op} (h : OpOk o p') : OpOk { o with stopRequested := true } p' := by
  refine ⟨?_, h.token, fun _ => rfl, h.abandoned, h.destroyed, h.destroyer⟩
  have hstage := h.stage
  cases p' with
  | carried u stage =>
    cases stage with
    | completing stage => cases stage <;> exact hstage
    | _ => exact hstage
  | elsewhere e => cases e <;> exact hstage

theorem Inv.step_callback (h : Inv s place) {requested : Bool}
    (hst : s.stack t = .callback record requested :: rest) :
    ∃ place', Inv (s.advanceCallback t record requested rest) place' := by
  have hframe := h.frames t (.callback record requested) (by rw [hst]; exact List.mem_cons_self)
  cases requested with
  | false =>
    have hruns := h.runs t record (by rw [hst]; exact List.mem_cons_self)
    have hsame := h.carries_same [.callback record false] [.cancelRecord record, .callback record true]
      hst rfl record
    refine ⟨_, h.single [.callback record false] [.cancelRecord record, .callback record true] hst
      (h.tail hst) (by simp [Frame.calling]) hsame Iff.rfl (h.ops record).stop_requested
      ⟨le_rfl, id, fun _ => rfl, id⟩ ?_ ?_ ?_ ?_ ?_ ?_⟩
    · simp [FrameOk]
    · simp
    · exact fun _ _ hu => hu
    · intro u hu
      have hut : u = t := by
        rw [show (s.ops record).callback = .running u from hu] at hruns
        cases hruns
        rfl
      exact .inl ⟨hut, true, by simp⟩
    · exact fun other hne => ⟨by simp [hne], by simp [Frame.cancels]⟩
    · exact fun _ _ => .inl ⟨.cancelRecord record, by simp, by simp [Frame.cancels]⟩
  | true =>
    have hsame := h.carries_same [.callback record true] [] hst rfl record
    have hstop : (s.ops record).stopRequested = true := hframe
    have hop : OpOk { s.ops record with callback := if (s.ops record).callback = .running t then
        .spent else (s.ops record).callback } (place record) := by
      by_cases hr : (s.ops record).callback = .running t
      · rw [if_pos hr]
        exact (h.ops record).set_callback (by rw [hr]; rintro ⟨⟩) (by rintro ⟨⟩) fun _ => hstop
      · rw [if_neg hr]
        exact h.ops record
    refine ⟨_, h.single [.callback record true] [] hst (h.tail hst) (by simp) hsame Iff.rfl hop
      ⟨le_rfl, id, id, id⟩ (by simp) (by simp) ?_ ?_ ?_ ?_⟩
    · intro u hu hr
      rw [if_neg, hr]
      rw [hr]
      exact fun heq => hu (by cases heq; rfl)
    · intro u hr
      dsimp only at hr
      split at hr
      · cases hr
      · next hnot =>
        refine .inr ⟨hr, fun hu => ?_⟩
        subst hu
        exact absurd hr hnot
    · exact fun other hne => ⟨by simp [hne], by simp [Frame.cancels]⟩
    · exact fun hs _ => .inr ⟨hs, by simp [Frame.cancels]⟩

/-! ## The completion -/

theorem resetBlocked_of_not (hnot : ¬s.resetBlocked t record) (u : ThreadId) (hu : u ≠ t) :
    (s.ops record).callback ≠ .running u := fun hr => hnot ⟨u, hr, hu⟩

theorem Inv.step_claim (h : Inv s place) {completion : Completion}
    (hst : s.stack t = .complete record completion .claim :: rest)
    (hs : s.advanceComplete t record completion .claim rest = some s') : ∃ place', Inv s' place' := by
  have hplace := h.carried hst rfl
  have hop := h.ops record
  rw [hplace] at hop
  obtain ⟨hstarted, hdone, hdelivered, hcompletions⟩ := hop.stage
  cases hs
  have hnew : OpOk { s.ops record with completingThread := some t, done := true }
      (.carried t (.completing (.teardown !(s.ops record).done))) :=
    { hop with
      stage := ⟨hstarted, rfl, by simp [hdone], hdelivered, hcompletions, rfl⟩
      destroyer := fun _ _ _ heq => by cases heq }
  refine h.advance [.complete record completion (.teardown !(s.ops record).done)]
    (.completing (.teardown !(s.ops record).done)) hst rfl rfl ?_ ?_ rfl hnew ⟨?_, id, id, id⟩ ?_ (.inl rfl) rfl
  · simp
  · simp [Frame.quiet]
  · rw [hplace]
    exact le_rfl
  · simp [FrameOk]

theorem Inv.step_teardown (h : Inv s place) {completion : Completion} {won : Bool}
    (hst : s.stack t = .complete record completion (.teardown won) :: rest)
    (hs : s.advanceComplete t record completion (.teardown won) rest = some s') :
    ∃ place', Inv s' place' := by
  have hplace := h.carried hst rfl
  have hop := h.ops record
  rw [hplace] at hop
  obtain ⟨hstarted, hdone, habandoned, hdelivered, hcompletions, hthread⟩ := hop.stage
  unfold State.advanceComplete at hs
  dsimp only at hs
  split at hs
  · cases hs
  · next hfree =>
    have hcallback := resetBlocked_of_not hfree
    have hrank : ∀ stage, rank (place record) ≤ rank (.carried t (.completing stage)) := by
      intro stage
      rw [hplace]
      exact le_rfl
    cases won with
    | true =>
      cases hs
      have hlive : (s.ops record).destroyed = none := by
        by_contra hd
        rcases (hop.destroyed hd).2.2 hstarted with ha | hc
        · rw [habandoned] at ha
          cases ha
        · exact hc hcompletions
      have hnew : OpOk { s.ops record with
          callback := .absent, completions := (s.ops record).completions ++ [completion] }
          (.carried t (.completing .receiver)) :=
        { token := hop.token
          spent := nofun
          abandoned := hop.abandoned
          stage := ⟨hstarted, hdone, habandoned, hdelivered, rfl, by simp [hcompletions], hthread⟩
          destroyed := fun hd => absurd hlive hd
          destroyer := fun u _ hd => by
            rw [show (s.ops record).destroyed = some u from hd] at hlive
            cases hlive }
      refine h.advance [.complete record completion .receiver] (.completing .receiver) hst rfl rfl ?_ ?_
        rfl hnew ⟨hrank _, id, id, id⟩ ?_ (.inr ⟨nofun, hcallback⟩) rfl
      · simp
      · simp [Frame.quiet]
      · simp [FrameOk]
    | false =>
      cases hs
      have hnew : OpOk { s.ops record with callback := .absent } (.carried t (.completing .deliver)) :=
        { token := hop.token
          spent := nofun
          abandoned := hop.abandoned
          stage := ⟨hstarted, hdone, hdelivered, rfl, by simp [habandoned, hcompletions]⟩
          destroyed := fun hd => ⟨(hop.destroyed hd).1, rfl, (hop.destroyed hd).2.2⟩
          destroyer := fun _ _ _ heq => by cases heq }
      refine h.advance [.complete record completion .deliver] (.completing .deliver) hst rfl rfl ?_ ?_
        rfl hnew ⟨hrank _, id, id, id⟩ ?_ (.inr ⟨nofun, hcallback⟩) rfl
      · simp
      · simp [Frame.quiet]
      · simp [FrameOk]

theorem Inv.step_receiver (h : Inv s place) {completion : Completion}
    (hst : s.stack t = .complete record completion .receiver :: rest)
    (hs : s.advanceComplete t record completion .receiver rest = some s') : ∃ place', Inv s' place' := by
  have hplace := h.carried hst rfl
  have hop := h.ops record
  rw [hplace] at hop
  obtain ⟨hstarted, hdone, habandoned, hdelivered, hcallback, hcompletions, -⟩ := hop.stage
  cases hs
  have hnew : OpOk (s.ops record) (.carried t (.completing .deliver)) :=
    { hop with
      stage := ⟨hstarted, hdone, hdelivered, hcallback, by simp [habandoned, hcompletions]⟩
      destroyer := fun _ _ _ heq => by cases heq }
  refine h.pass [.complete record completion .deliver] (.completing .deliver) hst rfl rfl ?_ ?_ rfl hnew
    ?_ ?_
  · simp
  · simp [Frame.quiet]
  · rw [hplace]
    exact le_rfl
  · simp [FrameOk]

theorem Inv.step_deliver (h : Inv s place) {completion : Completion}
    (hst : s.stack t = .complete record completion .deliver :: rest)
    (hs : s.advanceComplete t record completion .deliver rest = some s') : ∃ place', Inv s' place' := by
  have hplace := h.carried hst rfl
  have hop := h.ops record
  rw [hplace] at hop
  obtain ⟨hstarted, hdone, hdelivered, hcallback, hcompletions⟩ := hop.stage
  cases hs
  have hnew : OpOk { s.ops record with delivered := true } (.elsewhere .gone) :=
    { hop with
      stage := ⟨hstarted, hdone, nofun, fun _ => hcallback, hcompletions⟩
      destroyer := fun _ _ _ heq => by cases heq }
  refine ⟨_, h.quiet [.complete record completion .deliver] [] hst (h.tail hst) (by simp)
    (by simp [Frame.quiet]) (by simp) (h.carries_release hst rfl rfl .gone) ?_ hnew ⟨?_, id, id, id⟩ (by simp)
    (.inl rfl) rfl⟩
  · rw [hplace]
    constructor <;> exact fun heq => by cases heq
  · rw [hplace]
    exact le_rfl

theorem Inv.step_batch (h : Inv s place) {completion : Completion} {queue : List Action} {count : ℕ}
    (hst : s.stack t = .batch ((record, completion) :: queue) count :: rest) :
    ∃ place', Inv (s.setStack t (.complete record completion .claim :: .batch queue count :: rest))
      place' := by
  have hload : loads s.stack t = (record, .queued) ::
      (queue.map (fun action => (action.1, Stage.queued)) ++ rest.flatMap Frame.load) := by
    rw [loads_cons hst]
    rfl
  have hplace := (h.carries.of_head hload).1
  have hop := h.ops record
  rw [hplace] at hop
  have hnew : OpOk (s.ops record) (.carried t (.completing .claim)) :=
    { hop with
      stage := hop.stage
      destroyer := fun _ _ _ heq => by cases heq }
  have hcarries := h.carries.advance hload (.completing .claim)
  have hquiet := h.quiet [.batch ((record, completion) :: queue) count]
    [.complete record completion .claim, .batch queue count] hst (h.tail hst) (by simp [Frame.calling])
    (by simp [Frame.quiet]) (by simp [Frame.quiet]) hcarries (by
      rw [hplace]
      constructor <;> exact fun heq => by cases heq) hnew ⟨by rw [hplace]; exact le_rfl, id, id, id⟩
    (by simp [FrameOk]) (.inl rfl) rfl
  rw [setOp_self] at hquiet
  exact ⟨_, hquiet⟩

/-! ## The destructor -/

/-- An abandoned operation whose callback is gone. -/
theorem OpOk.reset {o : Op} (h : OpOk o p') (habandoned : o.abandoned = true) (hrank : 3 ≤ rank p')
    (t : ThreadId) : OpOk { o with callback := .absent, destroyed := some t } p' := by
  have hstage := h.stage
  have hnotReceiver : ∀ u, p' ≠ .carried u (.completing .receiver) := by
    rintro u rfl
    have hnot : o.abandoned = false := hstage.2.2.1
    rw [habandoned] at hnot
    cases hnot
  refine
    { token := h.token
      spent := nofun
      abandoned := h.abandoned
      destroyed := fun _ => ⟨h.abandoned habandoned, rfl, fun _ => .inl habandoned⟩
      destroyer := fun _ u _ heq => absurd heq (hnotReceiver u)
      stage := ?_ }
  obtain rfl | ⟨u, rfl⟩ | ⟨u, stage, rfl⟩ := rank_three hrank
  · obtain ⟨h1, h2, h3, -, h5⟩ := hstage
    exact ⟨h1, h2, h3, fun _ => rfl, h5⟩
  · exact hstage
  · cases stage with
    | claim => exact hstage
    | teardown won => exact hstage
    | receiver => exact absurd rfl (hnotReceiver u)
    | deliver =>
      obtain ⟨h1, h2, h3, -, h5⟩ := hstage
      exact ⟨h1, h2, h3, rfl, h5⟩

theorem Inv.step_reset (h : Inv s place) (hst : s.stack t = .destroy record .reset :: rest)
    (hs : s.advanceDestroy t record .reset rest c = some s') : ∃ place', Inv s' place' := by
  have hframe := h.frames t (.destroy record .reset) (by rw [hst]; exact List.mem_cons_self)
  have hsame := h.carries_same [.destroy record .reset] [] hst rfl record
  unfold State.advanceDestroy at hs
  dsimp only at hs
  split at hs
  · cases hs
  · next hfree =>
    cases hs
    exact ⟨_, h.quiet [.destroy record .reset] [] hst (h.tail hst) (by simp) (by simp [Frame.quiet])
      (by simp) hsame Iff.rfl ((h.ops record).reset hframe.1 hframe.2 t) ⟨le_rfl, id, id, id⟩ (by simp)
      (.inr ⟨nofun, resetBlocked_of_not hfree⟩) rfl⟩

/-- What is delivered is gone, and with it the callback. -/
theorem OpOk.gone_of_delivered {o : Op} (h : OpOk o p') (hdelivered : o.delivered = true) :
    p' = .elsewhere .gone := by
  have hstage := h.stage
  cases p' with
  | carried u stage =>
    cases stage with
    | starting stage =>
      rw [hstage.2.2.2.1] at hdelivered
      cases hdelivered
    | queued =>
      rw [hstage.2.2.1] at hdelivered
      cases hdelivered
    | completing stage => cases stage <;> simp [StageOk, hdelivered] at hstage
  | elsewhere e =>
    cases e with
    | fresh =>
      rw [hstage.2.2.2.1] at hdelivered
      cases hdelivered
    | slot =>
      rw [hstage.2.2.1] at hdelivered
      cases hdelivered
    | gone => rfl

/-- The destructor returns when the completion is over. -/
theorem OpOk.destroyed_after {o : Op} (h : OpOk o p') (hdestroying : o.destroying = true)
    (hdone : o.started = true → o.abandoned = true ∨ o.completions ≠ []) (hcallback : o.callback = .absent)
    (hplace : p' ≠ .elsewhere .slot) (t : ThreadId)
    (hown : ∀ u, p' = .carried u (.completing .receiver) → u = t) :
    OpOk { o with destroyed := some t } p' := by
  have hstage := h.stage
  refine
    { token := h.token
      spent := h.spent
      abandoned := h.abandoned
      destroyed := fun _ => ⟨hdestroying, hcallback, hdone⟩
      destroyer := fun v u hv hp => by
        cases hv
        exact hown u hp
      stage := ?_ }
  cases p' with
  | carried u stage =>
    cases stage with
    | completing stage => cases stage <;> exact hstage
    | _ => exact hstage
  | elsewhere e =>
    cases e with
    | fresh => exact hstage
    | slot => exact absurd rfl hplace
    | gone => exact hstage

theorem claimed_of_length {o : Op} (h : o.completions.length = if o.abandoned then 0 else 1) :
    o.abandoned = true ∨ o.completions ≠ [] := by
  by_cases ha : o.abandoned = true
  · exact .inl ha
  · rw [if_neg ha] at h
    exact .inr fun hnil => by simp [hnil] at h

theorem Inv.step_wait (h : Inv s place) (hst : s.stack t = .destroy record .wait :: rest)
    (hs : s.advanceDestroy t record .wait rest c = some s') : ∃ place', Inv s' place' := by
  have hframe := h.frames t (.destroy record .wait) (by rw [hst]; exact List.mem_cons_self)
  have hsame := h.carries_same [.destroy record .wait] [] hst rfl record
  have hop := h.ops record
  unfold State.advanceDestroy at hs
  dsimp only at hs
  split at hs
  · next hdelivered =>
    cases hs
    have hgone := hop.gone_of_delivered hdelivered
    have hnew : OpOk { s.ops record with destroyed := some t } (place record) := by
      have hstage := hop.stage
      rw [hgone] at hstage
      refine hop.destroyed_after hframe.1 (fun _ => claimed_of_length hstage.2.2.2.2)
        (hstage.2.2.2.1 hdelivered) ?_ t ?_
      · rw [hgone]
        nofun
      · rw [hgone]
        nofun
    exact ⟨_, h.quiet [.destroy record .wait] [] hst (h.tail hst) (by simp) (by simp [Frame.quiet])
      (by simp) hsame Iff.rfl hnew ⟨le_rfl, id, id, id⟩ (by simp) (.inl rfl) rfl⟩
  · cases hs

/-! ## Calls -/

theorem OpOk.fresh_of_not_started {o : Op} (h : OpOk o p') (hstarted : ¬o.started = true) :
    p' = .elsewhere .fresh := by
  have hstage := h.stage
  cases p' with
  | carried u stage =>
    cases stage with
    | completing stage => cases stage <;> exact absurd hstage.1 hstarted
    | _ => exact absurd hstage.1 hstarted
  | elsewhere e =>
    cases e with
    | fresh => rfl
    | slot => exact absurd hstage.1 hstarted
    | gone => exact absurd hstage.1 hstarted

theorem Inv.call_start (h : Inv s place) (hu : s.atUser t = true)
    (hs : s.call t (.start record) = some s') : ∃ place', Inv s' place' := by
  simp only [State.call, Option.ite_none_left_eq_some, Option.some.injEq, not_or] at hs
  obtain ⟨⟨hstarted, hdestroying⟩, rfl⟩ := hs
  have hop := h.ops record
  have hstage := hop.stage
  have hplace := hop.fresh_of_not_started hstarted
  rw [hplace] at hstage
  obtain ⟨-, hreturned, hdone, hdelivered, hcallback, hcompletions, habandoned⟩ := hstage
  have hnew : OpOk { s.ops record with started := true } (.carried t (.starting .check)) :=
    { token := hop.token
      spent := hop.spent
      abandoned := hop.abandoned
      destroyed := fun hd => absurd (hop.destroyed hd).1 hdestroying
      destroyer := fun _ _ _ heq => by cases heq
      stage := ⟨rfl, hreturned, hdone, hdelivered, hcompletions, habandoned, by simpa using hdestroying,
        nofun, fun _ => hcallback⟩ }
  have hcarries := h.carries.acquire hplace t (.starting .check)
  refine ⟨_, h.quiet [] [.start record .check] rfl (h.at_user hu) (by simp) (by simp)
    (by simp [Frame.quiet]) hcarries ?_ hnew ⟨?_, id, id, id⟩ (by simp [FrameOk]) (.inl rfl) rfl⟩
  · rw [hplace]
    constructor <;> exact fun heq => by cases heq
  · rw [hplace]
    simp [rank]

theorem OpOk.token_stopped {o : Op} (h : OpOk o p') (hpossible : o.stopPossible = true) :
    OpOk { o with tokenStopped := true } p' := by
  refine ⟨?_, fun _ => hpossible, h.spent, h.abandoned, h.destroyed, h.destroyer⟩
  have hstage := h.stage
  cases p' with
  | carried u stage =>
    cases stage with
    | completing stage => cases stage <;> exact hstage
    | _ => exact hstage
  | elsewhere e => cases e <;> exact hstage

theorem setStack_self (s : State) (t : ThreadId) : s.setStack t (s.stack t) = s := by
  rw [State.setStack, Function.update_eq_self]

/-- A call that changes one operation, and neither its place nor a stack. -/
theorem Inv.call_op (h : Inv s place) (hu : s.atUser t = true) (hop : OpOk o' (place record))
    (hgrows : Grows (s.ops record) (place record) o' (place record))
    (hcallback : o'.callback = (s.ops record).callback)
    (hstop : o'.stopRequested = (s.ops record).stopRequested) :
    ∃ place', Inv (s.setOp record o') place' := by
  have hquiet := h.quiet [] [] (t := t) rfl (h.at_user hu) (by simp) (by simp) (by simp)
    (h.carries_same [] [] rfl rfl record) Iff.rfl hop hgrows (by simp) (.inl hcallback) hstop
  have hself : (s.setOp record o').setStack t ([] ++ s.stack t) = s.setOp record o' :=
    setStack_self (s.setOp record o') t
  rw [hself] at hquiet
  exact ⟨_, hquiet⟩

theorem Inv.call_stopToken (h : Inv s place) (hu : s.atUser t = true)
    (hs : s.call t (.stopToken record) = some s') : ∃ place', Inv s' place' := by
  simp only [State.call, Option.ite_none_right_eq_some, Option.some.injEq] at hs
  obtain ⟨hpossible, rfl⟩ := hs
  exact h.call_op hu ((h.ops record).token_stopped hpossible) ⟨le_rfl, id, id, id⟩ rfl rfl

/-- An operation whose start is over, or that was not started, may be destroyed. -/
theorem OpOk.begin_destroy {o : Op} (h : OpOk o p')
    (hover : ¬(o.started = true ∧ ¬o.startReturned = true ∧ o.completions = [])) :
    OpOk { o with destroying := true } p' := by
  have hstage := h.stage
  refine
    { token := h.token
      spent := h.spent
      abandoned := fun _ => rfl
      destroyed := fun hd => ⟨rfl, (h.destroyed hd).2⟩
      destroyer := h.destroyer
      stage := ?_ }
  cases p' with
  | carried u stage =>
    cases stage with
    | starting stage =>
      obtain ⟨h1, h2, -, -, h5, -⟩ := hstage
      exact absurd ⟨h1, by simp [h2], h5⟩ hover
    | queued => exact hstage
    | completing stage => cases stage <;> exact hstage
  | elsewhere e => cases e <;> exact hstage

/-- While user code runs on the thread, it is not tearing down the callback of a record. -/
theorem Inv.not_teardown (h : Inv s place) (hu : s.atUser t = true) (won : Bool) :
    place record ≠ .carried t (.completing (.teardown won)) := by
  intro hp
  have hload := (h.carries.mem t record _).mpr hp
  obtain ⟨f, hf, hm⟩ := List.mem_flatMap.mp hload
  have hcalling := h.at_user hu f hf
  cases f with
  | start other stage => cases stage <;> simp [Frame.load] at hm
  | complete other completion stage =>
    simp only [Frame.load, List.mem_singleton, Prod.mk.injEq, Stage.completing.injEq] at hm
    obtain ⟨-, rfl⟩ := hm
    cases hcalling
  | batch queue count => simp [Frame.load] at hm
  | _ => simp [Frame.load] at hm

/-- An operation that a completion claimed. -/
theorem OpOk.rank_of_claimed {o : Op} (h : OpOk o p') (hdone : o.done = true)
    (habandoned : o.abandoned = false) : p' = .elsewhere .gone ∨
      ∃ u stage, p' = .carried u (.completing stage) ∧ stage ≠ .claim := by
  have hstage := h.stage
  cases p' with
  | carried u stage =>
    cases stage with
    | starting stage => simp [StageOk, hdone] at hstage
    | queued => simp [StageOk, hdone, habandoned] at hstage
    | completing stage =>
      refine .inr ⟨u, stage, rfl, ?_⟩
      rintro rfl
      simp [StageOk, hdone, habandoned] at hstage
  | elsewhere e =>
    cases e with
    | fresh => simp [StageOk, hdone] at hstage
    | slot => simp [StageOk, hdone, habandoned] at hstage
    | gone => exact .inl rfl

/-- The receiver that destroys the operation is called on the destroying thread. -/
theorem Inv.claimed_inside (h : Inv s place) (hu : s.atUser t = true) (hdone : (s.ops record).done = true)
    (habandoned : (s.ops record).abandoned = false)
    (hthread : (s.ops record).completingThread = some t) :
    ((s.ops record).abandoned = true ∨ (s.ops record).completions ≠ []) ∧
      (s.ops record).callback = .absent ∧
      ∀ u, place record = .carried u (.completing .receiver) → u = t := by
  have hstage := (h.ops record).stage
  obtain hp | ⟨u, stage, hp, hne⟩ := (h.ops record).rank_of_claimed hdone habandoned
  · rw [hp] at hstage
    obtain ⟨-, -, hgone, hcallback, hlength⟩ := hstage
    have hdelivered : (s.ops record).delivered = true := by
      by_contra hnot
      rw [hgone (by simpa using hnot)] at habandoned
      cases habandoned
    exact ⟨claimed_of_length hlength, hcallback hdelivered, by rw [hp]; nofun⟩
  · rw [hp] at hstage
    cases stage with
    | claim => exact absurd rfl hne
    | teardown won =>
      have hown := hstage.2.2.2.2.2
      rw [hthread] at hown
      cases hown
      exact absurd hp (h.not_teardown hu won)
    | receiver =>
      obtain ⟨-, -, -, -, hcallback, hlength, hown⟩ := hstage
      rw [hthread] at hown
      cases hown
      refine ⟨.inr ?_, hcallback, ?_⟩
      · intro hnil
        simp [hnil] at hlength
      · rw [hp]
        intro u heq
        cases heq
        rfl
    | deliver =>
      obtain ⟨-, -, -, hcallback, hlength⟩ := hstage
      exact ⟨claimed_of_length hlength, hcallback, by rw [hp]; nofun⟩

/-- The destructor abandons an operation that no completion has claimed. -/
theorem OpOk.abandon {o : Op} (h : OpOk o p') (hstarted : o.started = true) (hdone : o.done = false)
    (hdestroying : ¬o.destroying = true)
    (hover : ¬(o.started = true ∧ ¬o.startReturned = true ∧ o.completions = [])) :
    2 ≤ rank p' ∧ OpOk { o with destroying := true, done := true, abandoned := true } p' := by
  have hstage := h.stage
  have hfacts : 2 ≤ rank p' ∧
      StageOk { o with destroying := true, done := true, abandoned := true } p' := by
    cases p' with
    | carried u stage =>
      cases stage with
      | starting stage =>
        obtain ⟨-, h2, -, -, h5, -⟩ := hstage
        exact absurd ⟨hstarted, by simp [h2], h5⟩ hover
      | queued =>
        obtain ⟨h1, -, h3, h4⟩ := hstage
        exact ⟨by simp [rank], h1, rfl, h3, h4⟩
      | completing stage =>
        cases stage with
        | claim =>
          obtain ⟨h1, -, h3, h4⟩ := hstage
          exact ⟨by simp [rank], h1, rfl, h3, h4⟩
        | _ => simp [StageOk, hdone] at hstage
    | elsewhere e =>
      cases e with
      | fresh => simp [StageOk, hstarted] at hstage
      | slot =>
        obtain ⟨h1, -, h3, h4, h5, h6⟩ := hstage
        exact ⟨by simp [rank], h1, rfl, h3, h4, h5, h6⟩
      | gone => simp [StageOk, hdone] at hstage
  refine ⟨hfacts.1, ?_⟩
  exact
    { token := h.token
      spent := h.spent
      abandoned := fun _ => rfl
      destroyed := fun hd => absurd (h.destroyed hd).1 hdestroying
      destroyer := fun u v hd _ => absurd (h.destroyed (by
        rw [show o.destroyed = some u from hd]
        rintro ⟨⟩)).1 hdestroying
      stage := hfacts.2 }

theorem Inv.call_destroy (h : Inv s place) (hu : s.atUser t = true)
    (hs : s.call t (.destroy record) = some s') : ∃ place', Inv s' place' := by
  have hop := h.ops record
  unfold State.call State.destroy at hs
  dsimp only at hs
  split at hs
  · cases hs
  next hfirst =>
  obtain ⟨hdestroying, hover⟩ := not_or.mp hfirst
  have hbegin := hop.begin_destroy hover
  have habandoned : (s.ops record).abandoned = false :=
    Bool.eq_false_iff.mpr fun ha => hdestroying (hop.abandoned ha)
  split at hs
  · next hstarted =>
    -- The operation was never started.
    cases hs
    have hplace := hop.fresh_of_not_started hstarted
    have hstage := hop.stage
    rw [hplace] at hstage
    have hnew := hbegin.destroyed_after rfl (fun hst => absurd hst hstarted) hstage.2.2.2.2.1
      (by rw [hplace]; nofun) t (by rw [hplace]; nofun)
    exact h.call_op hu hnew ⟨le_rfl, id, id, fun _ => rfl⟩ rfl rfl
  next hstarted =>
  rw [not_not] at hstarted
  split at hs
  · next hdone =>
    have hrank : 3 ≤ rank (place record) := by
      obtain hp | ⟨u, stage, hp, -⟩ := hop.rank_of_claimed hdone habandoned <;> rw [hp] <;> exact le_rfl
    split at hs
    · next hthread =>
      cases hs
      obtain ⟨hclaimed, hcallback, hown⟩ := h.claimed_inside hu hdone habandoned hthread
      have hslot : place record ≠ .elsewhere .slot := by
        intro hp
        simp [hp, rank] at hrank
      have hnew := hbegin.destroyed_after rfl (fun _ => hclaimed) hcallback hslot t hown
      exact h.call_op hu hnew ⟨le_rfl, id, id, fun _ => rfl⟩ rfl rfl
    · cases hs
      exact ⟨_, h.quiet [] [.destroy record .wait] rfl (h.at_user hu) (by simp) (by simp)
        (by simp [Frame.quiet]) (h.carries_same [] [.destroy record .wait] rfl rfl record) Iff.rfl hbegin
        ⟨le_rfl, id, id, fun _ => rfl⟩ (by simpa [FrameOk] using hrank) (.inl rfl) rfl⟩
  · next hdone =>
    cases hs
    obtain ⟨hrank, hnew⟩ := hop.abandon hstarted (by simpa using hdone) hdestroying hover
    exact ⟨_, h.quiet [] [.destroy record .discard] rfl (h.at_user hu) (by simp) (by simp)
      (by simp [Frame.quiet]) (h.carries_same [] [.destroy record .discard] rfl rfl record) Iff.rfl hnew
      ⟨le_rfl, fun _ => rfl, id, fun _ => rfl⟩ (by simpa [FrameOk] using hrank) (.inl rfl) rfl⟩

end CCForge.Epoll
