import CCForge.Epoll.Steps
import CCForge.Lib.Updates

/-!
# The steps with a section of the registry

What a section takes out of the slots, the thread carries from then on. The section of a start
puts its record in a slot, or the thread carries it to its completion.
-/

namespace CCForge.Epoll

variable {s s' : State} {place place' : Record → RecordPlace} {t : ThreadId} {f : Frame}
  {old new rest : List Frame} {record : Record} {p' : RecordPlace} {c : Choice} {g : Registry}
  {actions : List Action}

/-- A step with a section changes no operation. -/
theorem Inv.section_step (h : Inv s place) (old new : List Frame) (hst : s.stack t = old ++ rest)
    (hrest : ∀ f ∈ rest, f.calling = true) (htail : ∀ f ∈ new.tail, f.calling = true)
    (hsound : g.Sound) (hstopped : g.stopped = true → ∀ fd kind, g.resident fd kind = none)
    (hslot : ∀ record, g.resident record.fd record.kind = some record ↔ place' record = .elsewhere .slot)
    (hcarries : Carries (Function.update (loads s.stack) t ((new ++ rest).flatMap Frame.load)) place')
    (hops : ∀ record, OpOk (s.ops record) (place' record))
    (hrank : ∀ record, rank (place record) ≤ rank (place' record))
    (hnew : ∀ f ∈ new, FrameOk s.ops place' f)
    (hcallback : ∀ record requested, .callback record requested ∉ old ++ new)
    (hcancels : ∀ record, place' record = .elsewhere .slot →
      (∃ f ∈ new, f.cancels record = true) ∨
      (place record = .elsewhere .slot ∧ ∀ f ∈ old, f.cancels record = false)) :
    Inv ({ s with registry := g }.setStack t (new ++ rest)) place' := by
  have hreplaces : Replaces s ({ s with registry := g }.setStack t (new ++ rest)) t old new rest :=
    ⟨hst, rfl, hrest, htail⟩
  refine h.step hreplaces hsound hstopped hslot hcarries hops (fun r => ⟨hrank r, id, id, id⟩) hnew
    (fun r hm => ?_) (fun r u _ hr => hr) (fun r u hr => .inr ⟨hr, fun _ requested hm => ?_⟩)
    fun r hs hp => ?_
  · exact absurd (List.mem_append_right old hm) (hcallback r false)
  · exact hcallback r requested (List.mem_append_left new hm)
  · exact (hcancels r hp).imp_right fun hand => ⟨hs, hand⟩

/-- A section that moves one record from its place to `p'`. -/
theorem Inv.section_move (h : Inv s place) (old new : List Frame) (hst : s.stack t = old ++ rest)
    (hrest : ∀ f ∈ rest, f.calling = true) (htail : ∀ f ∈ new.tail, f.calling = true)
    (hsound : g.Sound) (hstopped : g.stopped = true → ∀ fd kind, g.resident fd kind = none)
    (hslot : ∀ r, g.resident r.fd r.kind = some r ↔
      Function.update place record p' r = .elsewhere .slot)
    (hcarries : Carries (Function.update (loads s.stack) t ((new ++ rest).flatMap Frame.load))
      (Function.update place record p'))
    (hop : OpOk (s.ops record) p') (hrank : rank (place record) ≤ rank p')
    (hnew : ∀ f ∈ new, FrameOk s.ops (Function.update place record p') f)
    (hcallback : ∀ record requested, .callback record requested ∉ old ++ new)
    (hcancels : ∀ r, Function.update place record p' r = .elsewhere .slot →
      (∃ f ∈ new, f.cancels r = true) ∨
      (place r = .elsewhere .slot ∧ ∀ f ∈ old, f.cancels r = false)) :
    Inv ({ s with registry := g }.setStack t (new ++ rest)) (Function.update place record p') :=
  h.section_step old new hst hrest htail hsound hstopped hslot hcarries
    (forall_update (P := fun r p => OpOk (s.ops r) p) (fun r _ => h.ops r) hop)
    (forall_update (P := fun r p => rank (place r) ≤ rank p) (fun _ _ => le_rfl) hrank)
    hnew hcallback hcancels

/-- A section that takes one record out of its slot. -/
theorem Inv.section_take (h : Inv s place) (old new : List Frame) (hst : s.stack t = old ++ rest)
    (hrest : ∀ f ∈ rest, f.calling = true) (htail : ∀ f ∈ new.tail, f.calling = true)
    (hr : s.registry.resident record.fd record.kind = some record)
    (htakes : s.registry.Takes g [record]) (hp' : p' ≠ .elsewhere .slot)
    (hcarries : Carries (Function.update (loads s.stack) t ((new ++ rest).flatMap Frame.load))
      (Function.update place record p'))
    (hop : OpOk (s.ops record) p') (hrank : rank (place record) ≤ rank p')
    (hnew : ∀ f ∈ new, FrameOk s.ops (Function.update place record p') f)
    (hcallback : ∀ record requested, .callback record requested ∉ old ++ new)
    (hcancels : ∀ r, r ≠ record → ∀ f ∈ old, f.cancels r = false) :
    Inv ({ s with registry := g }.setStack t (new ++ rest)) (Function.update place record p') := by
  refine h.section_move old new hst hrest htail htakes.sound ?_ ?_ hcarries hop hrank hnew hcallback ?_
  · intro hstopped fd kind
    have hnone := h.stopped (htakes.stopped.symm.trans hstopped) record.fd record.kind
    rw [hr] at hnone
    cases hnone
  · intro r
    rw [htakes.resident, h.slot]
    by_cases he : r = record
    · subst he
      simpa using hp'
    · simp [he]
  · intro r hp
    by_cases he : r = record
    · subst he
      rw [Function.update_self] at hp
      exact absurd hp hp'
    · rw [Function.update_of_ne he] at hp
      exact .inr ⟨hp, hcancels r he⟩

/-- A section that moves no record. -/
theorem Inv.registry_step (h : Inv s place) (old : List Frame) (hst : s.stack t = old ++ rest)
    (hrest : ∀ f ∈ rest, f.calling = true) (hload : old.flatMap Frame.load = []) (hsound : g.Sound)
    (hresident : ∀ fd kind, g.resident fd kind = s.registry.resident fd kind)
    (hstopped : g.stopped = s.registry.stopped)
    (hcallback : ∀ record requested, .callback record requested ∉ old)
    (hcancels : ∀ record, place record = .elsewhere .slot → ∀ f ∈ old, f.cancels record = false) :
    Inv ({ s with registry := g }.setStack t rest) place := by
  have hcarries := h.carries_same old [] hst hload.symm ⟨0, 0, .read⟩
  rw [Function.update_eq_self] at hcarries
  refine h.section_step old [] hst hrest (by simp) hsound (fun hs fd kind => ?_) (fun r => ?_) hcarries
    h.ops (fun _ => le_rfl) (by simp) (by simpa using hcallback) fun r hp => .inr ⟨hp, hcancels r hp⟩
  · rw [hresident]
    exact h.stopped (hstopped ▸ hs) fd kind
  · rw [hresident]
    exact h.slot r

theorem Inv.step_finish (h : Inv s place) {count : ℕ} (hst : s.stack t = f :: rest)
    (hf : f = .finish count ∨ f = .batch [] count) : ∃ place', Inv (s.finish t count rest) place' := by
  refine ⟨place, h.registry_step [f] hst (h.tail hst) ?_ (h.sound.finish count) (fun _ _ => rfl) rfl ?_ ?_⟩
  · rcases hf with rfl | rfl <;> rfl
  · rcases hf with rfl | rfl <;> simp
  · rcases hf with rfl | rfl <;> simp [Frame.cancels]

/-- The records that a section took are carried in the batch. -/
theorem Inv.reserve (h : Inv s place) (g' : Registry) (hcalling : ∀ f ∈ s.stack t, f.calling = true)
    (hresident : ∀ fd kind, g'.resident fd kind = s.registry.resident fd kind)
    (htakes : g'.Takes g (actions.map Prod.fst))
    (hstopped : g.stopped = true → ∀ fd kind, g.resident fd kind = none) :
    ∃ place', Inv ({ s with registry := g }.runReserved t actions (s.stack t)) place' := by
  have hout : ∀ r ∈ actions.map Prod.fst, place r = .elsewhere .slot := by
    intro r hr
    exact (h.slot r).mp ((hresident _ _).symm.trans (htakes.taken r hr))
  have hcarries := h.carries.acquireAll htakes.nodup (fun r hr => ⟨.slot, hout r hr⟩) t .queued
  have hqueued : ∀ r, r ∈ actions.map Prod.fst → OpOk (s.ops r) (.carried t .queued) := by
    intro r hr
    have hop := h.ops r
    rw [hout r hr] at hop
    obtain ⟨h1, h2, h3, h4, -⟩ := hop.stage
    exact { hop with
      stage := ⟨h1, h2, h3, h4⟩
      destroyer := fun _ _ _ heq => by cases heq }
  have hinv : ∀ new, new.flatMap Frame.load = (actions.map Prod.fst).map (fun r => (r, Stage.queued)) →
      new.tail = [] → (∀ f ∈ new, f.quiet = true ∧ FrameOk s.ops
        (fun r => if r ∈ actions.map Prod.fst then .carried t .queued else place r) f) →
      Inv ({ s with registry := g }.setStack t (new ++ s.stack t))
        (fun r => if r ∈ actions.map Prod.fst then .carried t .queued else place r) := by
    intro new hload htail hnew
    refine h.section_step [] new rfl hcalling (by simp [htail]) htakes.sound hstopped (fun r => ?_) ?_
      (fun r => ?_) (fun r => ?_) (fun f hf => (hnew f hf).2)
      (quiet_callback fun f hf => (hnew f (by simpa using hf)).1) fun r hp => ?_
    · rw [htakes.resident, hresident, h.slot]
      by_cases hr : r ∈ actions.map Prod.fst
      · simp [hr]
      · simp [hr]
    · rw [List.flatMap_append, hload]
      exact hcarries
    · by_cases hr : r ∈ actions.map Prod.fst
      · rw [if_pos hr]
        exact hqueued r hr
      · rw [if_neg hr]
        exact h.ops r
    · by_cases hr : r ∈ actions.map Prod.fst
      · rw [if_pos hr, hout r hr]
        simp [rank]
      · rw [if_neg hr]
    · by_cases hr : r ∈ actions.map Prod.fst
      · rw [if_pos hr] at hp
        cases hp
      · rw [if_neg hr] at hp
        exact .inr ⟨hp, by simp⟩
  unfold State.runReserved
  split
  · next hnil =>
    subst hnil
    exact ⟨_, hinv [] rfl rfl (by simp)⟩
  · refine ⟨_, hinv [.batch actions actions.length] ?_ rfl ?_⟩
    · simp [Frame.load]
    · simp [Frame.quiet, FrameOk]

theorem Inv.reserve_same (h : Inv s place) (hcalling : ∀ f ∈ s.stack t, f.calling = true)
    (htakes : s.registry.Takes g (actions.map Prod.fst)) :
    ∃ place', Inv ({ s with registry := g }.runReserved t actions (s.stack t)) place' := by
  refine h.reserve s.registry hcalling (fun _ _ => rfl) htakes fun hs fd kind => ?_
  have hnone := h.stopped (htakes.stopped.symm.trans hs) fd kind
  by_contra hsome
  obtain ⟨record, hr⟩ := Option.ne_none_iff_exists'.mp hsome
  rw [((htakes.resident fd kind record).mp hr).1] at hnone
  cases hnone

theorem Inv.call_cancel (h : Inv s place) {fd : ℤ} {fails : Fails} (hu : s.atUser t = true)
    (hs : s.call t (.cancel fd fails) = some s') : ∃ place', Inv s' place' := by
  cases hs
  exact h.reserve_same (h.at_user hu) (Registry.takes_cancel h.sound fd fails)

theorem Inv.call_requestStop (h : Inv s place) {fails : ℤ → Fails} (hu : s.atUser t = true)
    (hs : s.call t (.requestStop fails) = some s') : ∃ place', Inv s' place' := by
  cases hs
  exact h.reserve { s.registry with stopped := true } (h.at_user hu) (fun _ _ => rfl)
    (Registry.takes_requestStop h.sound fails)
    fun _ fd kind => Registry.takeAllOf_keys h.sound .stopped fails fd kind

theorem Inv.step_poll (h : Inv s place) {events : List Registry.Polled}
    (hs : s.step (.poll t events) = some s') : ∃ place', Inv s' place' := by
  simp only [State.step, Option.ite_none_right_eq_some, Option.some.injEq] at hs
  obtain ⟨hst, rfl⟩ := hs
  have hreserve := h.reserve_same (t := t) (by simp [hst]) (Registry.takes_poll h.sound events)
  rwa [hst] at hreserve

theorem Inv.step_pollFailed (h : Inv s place) {error : ℕ} {fails : ℤ → Fails}
    (hs : s.step (.pollFailed t error fails) = some s') : ∃ place', Inv s' place' := by
  simp only [State.step, Option.ite_none_right_eq_some, Option.some.injEq] at hs
  obtain ⟨hst, rfl⟩ := hs
  have hreserve := h.reserve (t := t) { s.registry with stopped := true } (by simp [hst])
    (fun _ _ => rfl)
    (Registry.takes_completeAllWithError h.sound error fails)
    fun _ fd kind => Registry.takeAllOf_keys h.sound _ fails fd kind
  rwa [hst] at hreserve

theorem Inv.registry_change (h : Inv s place) (hsound : g.Sound)
    (hresident : ∀ fd kind, g.resident fd kind = s.registry.resident fd kind)
    (hstopped : g.stopped = s.registry.stopped) : Inv { s with registry := g } place :=
  { h with
    sound := hsound
    stopped := fun hs fd kind => by
      rw [hresident]
      exact h.stopped (hstopped ▸ hs) fd kind
    slot := fun record => by
      rw [hresident]
      exact h.slot record }

/-! ## The section of a start -/

theorem Inv.step_locked (h : Inv s place) (hst : s.stack t = .start record .locked :: rest)
    (hs : s.advanceStart t record .locked rest c = some s') : ∃ place', Inv s' place' := by
  have hplace := h.carried hst rfl
  have hop := h.ops record
  rw [hplace] at hop
  have hload : loads s.stack t = (record, .starting .locked) :: rest.flatMap Frame.load := by
    rw [loads_cons hst]
    rfl
  obtain ⟨hstarted, hreturned, hdone, hdelivered, hcompletions, habandoned, hdestroying, hcallback, -⟩ :=
    hop.stage
  have hdestroyed : (s.ops record).destroyed = none := by
    by_contra hd
    rw [(hop.destroyed hd).1] at hdestroying
    cases hdestroying
  unfold State.advanceStart at hs
  dsimp only at hs
  split at hs
  · split at hs
    · cases hs
      exact h.start_completes (.error badAlloc) hst rfl rfl
    · cases hs
  obtain ⟨hresult, hputs⟩ | ⟨completion, hresult, hkeeps, -⟩ :=
    Registry.startLocked_spec h.sound record c.fails c.again
  · -- The record is pending.
    have hactions : (s.registry.start record c.fails c.again).2.1 = [] := congrArg Prod.fst hresult
    have hpending : (s.registry.start record c.fails c.again).2.2 = true := congrArg Prod.snd hresult
    rw [hactions, hpending, if_pos rfl] at hs
    cases hs
    have hnew : OpOk (s.ops record) (.elsewhere .slot) :=
      { hop with
        stage := ⟨hstarted, by rw [hdone, habandoned], hdelivered, hcompletions, hdestroyed, hcallback rfl⟩
        destroyer := fun _ _ _ heq => by cases heq }
    refine ⟨Function.update place record (.elsewhere .slot), h.section_move [.start record .locked]
      [.start record .recheck] hst (h.tail hst) (by simp) (hputs.sound.congr rfl rfl rfl) ?_ ?_
      (h.carries.release hload .slot) hnew (by simp [hplace, rank]) (by simp [FrameOk, rank])
      (by simp) ?_⟩
    -- A stopped registry refuses, so it cannot hold the new record.
    · intro hstopped
      have hrunning := hputs.running
      rw [show (s.registry.startLocked record c.fails c.again).1.stopped = true from hstopped] at hrunning
      cases hrunning
    · intro r
      have hresident := hputs.resident r.fd r.kind
      by_cases hr : r = record
      · subst hr
        rw [if_pos ⟨rfl, rfl⟩] at hresident
        rw [Function.update_self]
        exact ⟨fun _ => rfl, fun _ => hresident⟩
      · rw [Function.update_of_ne hr, ← h.slot]
        by_cases hsame : r.fd = record.fd ∧ r.kind = record.kind
        · rw [if_pos hsame] at hresident
          refine ⟨fun hm => ?_, fun hm => ?_⟩
          · cases hresident.symm.trans hm
            exact absurd rfl hr
          · rw [hsame.1, hsame.2, hputs.free] at hm
            cases hm
        · rw [if_neg hsame] at hresident
          rw [← hresident]
          rfl
    · intro r hp
      by_cases hr : r = record
      · subst hr
        exact .inl ⟨.start r .recheck, by simp, by simp [Frame.cancels]⟩
      · rw [Function.update_of_ne hr] at hp
        exact .inr ⟨hp, by simp [Frame.cancels]⟩
  · -- The record is completed by this start.
    have hactions : (s.registry.start record c.fails c.again).2.1 = [(record, completion)] :=
      congrArg Prod.fst hresult
    have hpending : (s.registry.start record c.fails c.again).2.2 = false := congrArg Prod.snd hresult
    rw [hactions, hpending, if_neg Bool.false_ne_true] at hs
    cases hs
    have hnew : OpOk (s.ops record) (.carried t .queued) :=
      { hop with
        stage := ⟨hstarted, by rw [hdone, habandoned], hdelivered, hcompletions⟩
        destroyer := fun _ _ _ heq => by cases heq }
    have hpass := h.pass [.batch [(record, completion)] 1, .start record .returning] .queued hst rfl rfl
      (by simp [Frame.calling]) (by simp [Frame.quiet]) rfl hnew (by rw [hplace]; simp [rank])
      (by simp [FrameOk, rank])
    obtain ⟨place', hinv⟩ := hpass
    exact ⟨place', hinv.registry_change (hkeeps.sound.congr rfl rfl rfl) hkeeps.resident hkeeps.stopped⟩

/-! ## Cancellation and the destructor -/

theorem Inv.step_cancelRecord (h : Inv s place) (hst : s.stack t = .cancelRecord record :: rest) :
    ∃ place', Inv (s.advanceCancel t record rest c) place' := by
  have hcb : ∀ other requested, Frame.callback other requested ∉ [Frame.cancelRecord record] := by simp
  unfold State.advanceCancel
  obtain ⟨hr, hfound, htakes⟩ | ⟨hr, hsame⟩ :=
    Registry.extract_spec h.sound record true c.fails
  · have hplace := (h.slot record).mp hr
    have hop := h.ops record
    rw [hplace] at hop
    obtain ⟨hstarted, hdone, hdelivered, hcompletions, -⟩ := hop.stage
    have hnew : OpOk (s.ops record) (.carried t (.completing .claim)) :=
      { hop with
        stage := ⟨hstarted, hdone, hdelivered, hcompletions⟩
        destroyer := fun _ _ _ heq => by cases heq }
    have hload : loads s.stack t = rest.flatMap Frame.load := by
      rw [loads_cons hst]
      rfl
    have hcarries := h.carries.acquire hplace t (.completing .claim)
    rw [hload] at hcarries
    dsimp only
    rw [if_pos hfound]
    refine ⟨_, h.section_take [.cancelRecord record] [.complete record .stopped .claim, .finish 1] hst
      (h.tail hst) (by simp [Frame.calling]) hr htakes (by simp) hcarries hnew (by simp [hplace, rank])
      (by simp [FrameOk]) (by simp) fun r he => ?_⟩
    simpa [Frame.cancels] using fun heq => he heq.symm
  · rw [hsame]
    dsimp only
    rw [if_neg Bool.false_ne_true]
    refine ⟨place, h.registry_step [.cancelRecord record] hst (h.tail hst) rfl h.sound (fun _ _ => rfl)
      rfl hcb fun r hp => ?_⟩
    have hne : r ≠ record := by
      rintro rfl
      exact hr ((h.slot r).mpr hp)
    simpa [Frame.cancels] using fun heq => hne heq.symm

/-- The place of a record that the destructor took out of its slot. -/
theorem OpOk.discarded {o : Op} (h : OpOk o (.elsewhere .slot)) (habandoned : o.abandoned = true) :
    OpOk o (.elsewhere .gone) := by
  obtain ⟨hstarted, hdone, hdelivered, hcompletions, -⟩ := h.stage
  refine
    { h with
      stage := ⟨hstarted, by rw [hdone, habandoned], fun _ => habandoned, fun hd => ?_,
        by simp [habandoned, hcompletions]⟩
      destroyer := fun _ _ _ heq => by cases heq }
  rw [hdelivered] at hd
  cases hd

theorem rank_past_slot (hrank : 2 ≤ rank p') (hslot : p' ≠ .elsewhere .slot) : 3 ≤ rank p' := by
  cases p' with
  | carried u stage => cases stage <;> simp_all [rank]
  | elsewhere e => cases e <;> simp_all [rank]

theorem Inv.step_discard (h : Inv s place) (hst : s.stack t = .destroy record .discard :: rest)
    (hs : s.advanceDestroy t record .discard rest c = some s') : ∃ place', Inv s' place' := by
  have hframe := h.frames t (.destroy record .discard) (by rw [hst]; exact List.mem_cons_self)
  have hload : loads s.stack t = rest.flatMap Frame.load := by
    rw [loads_cons hst]
    rfl
  unfold State.advanceDestroy at hs
  dsimp only at hs
  obtain ⟨hr, hfound, htakes⟩ | ⟨hr, hsame⟩ :=
    Registry.extract_spec h.sound record false c.fails
  · have hplace := (h.slot record).mp hr
    have hop := h.ops record
    rw [hplace] at hop
    rw [if_pos (.inl hfound)] at hs
    cases hs
    have hcarries : Carries (Function.update (loads s.stack) t (([Frame.destroy record .reset] ++
        rest).flatMap Frame.load)) (Function.update place record (.elsewhere .gone)) := by
      refine (h.carries.move hplace .gone).congr ?_
      rw [← Function.update_eq_self t (loads s.stack), hload, Function.update_idem]
      rfl
    exact ⟨_, h.section_take [.destroy record .discard] [.destroy record .reset] hst (h.tail hst)
      (by simp) hr htakes (by simp) hcarries (hop.discarded hframe.1) (by simp [hplace, rank])
      (by simpa [FrameOk, rank] using hframe.1) (by simp) (by simp [Frame.cancels])⟩
  · rw [hsame] at hs
    have hslot : place record ≠ .elsewhere .slot := fun hp => hr ((h.slot record).mpr hp)
    have hrank := rank_past_slot hframe.2 hslot
    have hdestroying := (h.ops record).abandoned hframe.1
    have hnext : ∀ stage, Frame.load (.destroy record stage) = [] ∧ Frame.quiet (.destroy record stage) = true →
        FrameOk s.ops place (.destroy record stage) →
        ∃ place', Inv (s.setStack t (.destroy record stage :: rest)) place' := by
      intro stage hplain hok
      have hquiet := h.quiet [.destroy record .discard] [.destroy record stage] hst (h.tail hst) (by simp)
        (by simp [Frame.quiet]) (by simpa using hplain.2)
        (h.carries_same [.destroy record .discard] [.destroy record stage] hst rfl record) Iff.rfl
        (h.ops record) (Grows.refl _ _) (by simpa [Function.update_eq_self] using hok) (.inl rfl) rfl
      rw [setOp_self] at hquiet
      exact ⟨_, hquiet⟩
    split at hs
    · cases hs
      exact hnext .reset ⟨rfl, rfl⟩ ⟨hframe.1, hrank⟩
    · cases hs
      exact hnext .wait ⟨rfl, rfl⟩ ⟨hdestroying, hrank⟩

/-! ## Runs -/

theorem Inv.step_advance (h : Inv s place) (hs : s.advance t c = some s') : ∃ place', Inv s' place' := by
  unfold State.advance at hs
  split at hs
  · cases hs
  · next record stage rest hst =>
    cases stage with
    | check => exact h.step_check hst hs
    | install => exact h.step_install hst hs
    | locked => exact h.step_locked hst hs
    | recheck => exact h.step_recheck hst hs
    | returning => exact h.step_returning hst hs
  · next hst =>
    cases hs
    exact h.step_callback hst
  · next hst =>
    cases hs
    exact h.step_cancelRecord hst
  · next hst =>
    cases hs
    exact h.step_finish hst (.inl rfl)
  · next hst =>
    cases hs
    exact h.step_finish hst (.inr rfl)
  · next hst =>
    cases hs
    exact h.step_batch hst
  · next record completion stage rest hst =>
    cases stage with
    | claim => exact h.step_claim hst hs
    | teardown won => exact h.step_teardown hst hs
    | receiver => exact h.step_receiver hst hs
    | deliver => exact h.step_deliver hst hs
  · next record stage rest hst =>
    cases stage with
    | discard => exact h.step_discard hst hs
    | reset => exact h.step_reset hst hs
    | wait => exact h.step_wait hst hs

theorem Inv.step_call (h : Inv s place) {call : State.Call} (hs : s.step (.call t call) = some s') :
    ∃ place', Inv s' place' := by
  simp only [State.step, Option.ite_none_right_eq_some] at hs
  obtain ⟨hu, hs⟩ := hs
  cases call with
  | start record => exact h.call_start hu hs
  | destroy record => exact h.call_destroy hu hs
  | cancel fd fails => exact h.call_cancel hu hs
  | close =>
    cases hs
    exact ⟨place, h.registry_change h.sound.close (fun _ _ => rfl) rfl⟩
  | requestStop fails => exact h.call_requestStop hu hs
  | stopToken record => exact h.call_stopToken hu hs
  | runCallback record => exact h.run_callback hu hs

theorem Inv.step_label (h : Inv s place) {a : Label} (hs : s.step a = some s') : ∃ place', Inv s' place' := by
  cases a with
  | call t call => exact h.step_call hs
  | advance t c => exact h.step_advance hs
  | poll t events => exact h.step_poll hs
  | pollFailed t error fails => exact h.step_pollFailed hs
  | reorder keys =>
    simp only [State.step, Option.ite_none_right_eq_some, Option.some.injEq] at hs
    obtain ⟨hperm, rfl⟩ := hs
    exact ⟨place, h.registry_change (h.sound.reorder hperm) (fun _ _ => rfl) rfl⟩

theorem inv_initial (h : s.IsInitial) : Inv s fun _ => .elsewhere .fresh := by
  obtain ⟨hregistry, hstack, hops⟩ := h
  have hfree : ∀ fd kind, s.registry.resident fd kind = none := by
    intro fd kind
    rw [hregistry]
    rfl
  have hloads : loads s.stack = fun _ => [] := by
    funext t
    simp [loads, hstack]
  refine
    { sound := Registry.sound_initial hregistry
      stopped := fun _ => hfree
      slot := fun record => by simp [hfree]
      carries := Carries.congr (Carries.nothing fun _ => ⟨Where.fresh, rfl⟩) hloads
      ops := fun record => ?_
      frames := fun t => by simp [hstack]
      calling := fun t => by simp [hstack]
      runs := fun t => by simp [hstack]
      running := fun t record => ?_
      cancels := fun record _ hp => by cases hp }
  · obtain ⟨stopPossible, ho⟩ := hops record
    rw [ho]
    exact ⟨⟨rfl, rfl, rfl, rfl, rfl, rfl, rfl⟩, by rintro ⟨⟩, by rintro ⟨⟩, by rintro ⟨⟩,
      fun hd => absurd rfl hd, by rintro _ _ ⟨⟩⟩
  · obtain ⟨stopPossible, ho⟩ := hops record
    rw [ho]
    rintro ⟨⟩

theorem reachable_inv (h : Reachable State.step State.IsInitial s) : ∃ place, Inv s place := by
  obtain ⟨s₀, hs₀, as, has⟩ := h
  refine run_preserves (P := fun s => ∃ place, Inv s place) ?_ ⟨_, inv_initial hs₀⟩ has
  rintro u a v ⟨place, hinv⟩ hstep
  exact hinv.step_label hstep

end CCForge.Epoll
