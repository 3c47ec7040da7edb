import CCForge.Epoll.SectionSteps

/-!
# What the registry owes its operations

The invariant holds in every reachable state. What remains is to read it off: the counter and the
entries of the table, the one place of a record, the completions of a receiver, and what is left of
an operation after its destructor has returned.
-/

namespace CCForge.Epoll

variable {s s' u : State} {place : Record → RecordPlace} {t : ThreadId} {f : Frame} {rest : List Frame}
  {record : Record} {o' : Op} {c : Choice} {a : Label}

/-! ## What a step does to the completions -/

/-- A receiver is completed by the winner of the claim only, and a destructor returns for good. -/
structure Extends (s s' : State) : Prop where
  completions : ∀ record, (s'.ops record).completions = (s.ops record).completions ∨
    ∃ t completion rest, s.stack t = .complete record completion (.teardown true) :: rest
  destroyed : ∀ record, (s.ops record).destroyed ≠ none → (s'.ops record).destroyed ≠ none

theorem Extends.same (h : s'.ops = s.ops) : Extends s s' :=
  ⟨fun record => .inl (by rw [h]), fun record => by rw [h]; exact id⟩

theorem Extends.update (h : s'.ops = Function.update s.ops record o')
    (hc : o'.completions = (s.ops record).completions ∨
      ∃ t completion rest, s.stack t = .complete record completion (.teardown true) :: rest)
    (hd : (s.ops record).destroyed ≠ none → o'.destroyed ≠ none) : Extends s s' := by
  constructor
  · intro other
    by_cases he : other = record
    · subst he
      rw [h, Function.update_self]
      exact hc
    · exact .inl (by rw [h, Function.update_of_ne he])
  · intro other
    by_cases he : other = record
    · subst he
      rw [h, Function.update_self]
      exact hd
    · rw [h, Function.update_of_ne he]
      exact id

/-- A step that changes other fields of one operation. -/
theorem Extends.plain (h : s'.ops = Function.update s.ops record o')
    (hc : o'.completions = (s.ops record).completions) (hd : o'.destroyed = (s.ops record).destroyed) :
    Extends s s' :=
  .update h (.inl hc) fun hn => hd ▸ hn

@[simp] theorem ops_runReserved (s : State) (t : ThreadId) (actions : List Action) (frames : List Frame) :
    (s.runReserved t actions frames).ops = s.ops := by
  unfold State.runReserved
  split <;> rfl

theorem extends_start {stage : StartStage} (hs : s.advanceStart t record stage rest c = some s') :
    Extends s s' := by
  unfold State.advanceStart at hs
  cases stage with
  | check =>
    dsimp only at hs
    split at hs <;> cases hs <;> exact .same rfl
  | install =>
    dsimp only at hs
    split_ifs at hs <;> cases hs <;> first | exact .same rfl | exact .plain rfl rfl rfl
  | locked =>
    dsimp only at hs
    split_ifs at hs <;> cases hs <;> exact .same (by simp [State.setStack])
  | recheck =>
    dsimp only at hs
    split at hs <;> cases hs <;> exact .same rfl
  | returning =>
    cases hs
    exact .plain rfl rfl rfl

theorem extends_complete {completion : Completion} {stage : CompleteStage}
    (hst : s.stack t = .complete record completion stage :: rest)
    (hs : s.advanceComplete t record completion stage rest = some s') : Extends s s' := by
  unfold State.advanceComplete at hs
  cases stage with
  | claim =>
    cases hs
    exact .plain rfl rfl rfl
  | teardown won =>
    dsimp only at hs
    split at hs
    · cases hs
    · cases won with
      | true =>
        cases hs
        exact .update rfl (.inr ⟨t, completion, rest, hst⟩) id
      | false =>
        cases hs
        exact .plain rfl rfl rfl
  | receiver =>
    cases hs
    exact .same rfl
  | deliver =>
    cases hs
    exact .plain rfl rfl rfl

theorem extends_destroy {stage : DestroyStage} (hs : s.advanceDestroy t record stage rest c = some s') :
    Extends s s' := by
  unfold State.advanceDestroy at hs
  cases stage with
  | discard =>
    dsimp only at hs
    split at hs <;> cases hs <;> exact .same rfl
  | reset =>
    dsimp only at hs
    split at hs
    · cases hs
    · cases hs
      exact .update rfl (.inl rfl) fun _ => nofun
  | wait =>
    dsimp only at hs
    split at hs
    · cases hs
      exact .update rfl (.inl rfl) fun _ => nofun
    · cases hs

theorem extends_call {call : State.Call} (hs : s.call t call = some s') : Extends s s' := by
  unfold State.call at hs
  cases call with
  | destroy record =>
    unfold State.destroy at hs
    dsimp only at hs
    split_ifs at hs <;> cases hs <;>
      first | exact .plain rfl rfl rfl | exact .update rfl (.inl rfl) fun _ => nofun
  | cancel fd fails =>
    cases hs
    exact .same (by simp)
  | requestStop fails =>
    cases hs
    exact .same (by simp)
  | close =>
    cases hs
    exact .same rfl
  | start record =>
    dsimp only at hs
    split at hs
    · cases hs
    · cases hs
      exact .plain rfl rfl rfl
  | stopToken record =>
    dsimp only at hs
    split at hs
    · cases hs
      exact .plain rfl rfl rfl
    · cases hs
  | runCallback record =>
    dsimp only at hs
    split at hs
    · cases hs
      exact .plain rfl rfl rfl
    · cases hs

theorem extends_step (hs : s.step a = some s') : Extends s s' := by
  cases a with
  | call t call =>
    simp only [State.step, Option.ite_none_right_eq_some] at hs
    exact extends_call hs.2
  | advance t c =>
    simp only [State.step, State.advance] at hs
    split at hs
    · cases hs
    · exact extends_start hs
    · next requested rest hst =>
      cases hs
      cases requested <;> exact .plain rfl rfl rfl
    · cases hs
      refine .same ?_
      unfold State.advanceCancel
      dsimp only
      split <;> rfl
    · cases hs
      exact .same rfl
    · cases hs
      exact .same rfl
    · cases hs
      exact .same rfl
    · next hst => exact extends_complete hst hs
    · exact extends_destroy hs
  | poll t events =>
    simp only [State.step, Option.ite_none_right_eq_some, Option.some.injEq] at hs
    obtain ⟨-, rfl⟩ := hs
    exact .same (by simp)
  | pollFailed t error fails =>
    simp only [State.step, Option.ite_none_right_eq_some, Option.some.injEq] at hs
    obtain ⟨-, rfl⟩ := hs
    exact .same (by simp)
  | reorder keys =>
    simp only [State.step, Option.ite_none_right_eq_some, Option.some.injEq] at hs
    obtain ⟨-, rfl⟩ := hs
    exact .same rfl

/-- After the destructor has returned, the receiver is never completed. -/
theorem completions_after_destroyed (h : ∃ place, Inv s place) {as : List Label}
    (hd : (s.ops record).destroyed ≠ none) (hrun : run State.step s as = some u) :
    (u.ops record).completions = (s.ops record).completions := by
  have hkept := run_preserves (P := fun u => (∃ place, Inv u place) ∧ (u.ops record).destroyed ≠ none ∧
    (u.ops record).completions = (s.ops record).completions) ?_ ⟨h, hd, rfl⟩ hrun
  · exact hkept.2.2
  rintro v a w ⟨⟨place, hinv⟩, hdestroyed, hcompletions⟩ hstep
  have hextends := extends_step hstep
  refine ⟨hinv.step_label hstep, hextends.destroyed record hdestroyed, ?_⟩
  rcases hextends.completions record with hsame | ⟨t, completion, rest, hst⟩
  · rw [hsame, hcompletions]
  · -- The winner of the claim is not an operation whose destructor has returned.
    have hop := hinv.ops record
    rw [hinv.carried hst rfl] at hop
    obtain ⟨hstarted, -, habandoned, -, hnil, -⟩ := hop.stage
    rcases (hop.destroyed hdestroyed).2.2 hstarted with ha | hc
    · rw [habandoned] at ha
      cases ha
    · exact absurd hnil hc

/-! ## What holds in every state -/

/-- The records of a frame whose receivers are not completed yet. -/
def Frame.undelivered : Frame → List Record
  | .batch queue _ => queue.map Prod.fst
  | .complete record _ .claim => [record]
  | .complete record _ (.teardown _) => [record]
  | _ => []

/-- The records that a thread took out and has not delivered. -/
def State.undelivered (s : State) (t : ThreadId) : List Record := (s.stack t).flatMap Frame.undelivered

/-- The start has not come to its section. -/
def State.starting (s : State) (record : Record) : Prop :=
  ∃ t stage, .start record stage ∈ s.stack t ∧ (stage = .check ∨ stage = .install ∨ stage = .locked)

structure Guarantees (s : State) : Prop where
  pending : s.registry.pending = census occupiedSlots s.registry.fdWaiters s.registry.keys
  keys : s.registry.keys.Nodup ∧ ∀ fd, fd ∈ s.registry.keys ↔ (s.registry.fdWaiters fd).isSome = true
  waiting : ∀ fd w, s.registry.fdWaiters fd = some w → w.empty = false
  slots : ∀ fd kind record, s.registry.resident fd kind = some record →
    record.fd = fd ∧ record.kind = kind ∧ ∀ t, record ∉ s.undelivered t
  batches : ∀ t, (s.undelivered t).Nodup
  threads : ∀ t u record, record ∈ s.undelivered t → record ∈ s.undelivered u → t = u
  once : ∀ record, (s.ops record).completions.length ≤ 1
  resident : ∀ record, s.registry.resident record.fd record.kind = some record →
    (s.ops record).completions = []
  undelivered : ∀ t, ∀ record ∈ s.undelivered t, (s.ops record).completions = []
  kept : ∀ record, (s.ops record).started = true → (s.ops record).abandoned = false →
    s.starting record ∨ s.registry.resident record.fd record.kind = some record ∨
      (∃ t, record ∈ s.undelivered t) ∨ (s.ops record).completions.length = 1
  destroyed : ∀ record u, (s.ops record).destroyed = some u → (s.ops record).callback = .absent ∧
    s.registry.resident record.fd record.kind ≠ some record ∧
    (∀ t, .callback record false ∉ s.stack t) ∧
    ∀ t completion, .complete record completion .receiver ∈ s.stack t → t = u
  settled : (∀ t, s.stack t = []) →
    (∀ record, (s.ops record).tokenStopped = true → (s.ops record).callback ≠ .armed) →
    ∀ record, (s.ops record).started = true → (s.ops record).abandoned = false →
      (s.registry.resident record.fd record.kind = some record ∧ s.registry.stopped = false ∧
        (s.ops record).tokenStopped = false) ∨
      ((s.ops record).completions.length = 1 ∧ (s.ops record).delivered = true)

/-- What is undelivered is a sublist of what is carried. -/
theorem undelivered_sublist (frames : List Frame) :
    List.Sublist (frames.flatMap Frame.undelivered) ((frames.flatMap Frame.load).map Prod.fst) := by
  induction frames with
  | nil => exact List.Sublist.refl _
  | cons f frames ih =>
    rw [List.flatMap_cons, List.flatMap_cons, List.map_append]
    refine List.Sublist.append ?_ ih
    cases f with
    | batch queue count => simp [Frame.undelivered, Frame.load, Function.comp_def]
    | complete record completion stage => cases stage <;> simp [Frame.undelivered, Frame.load]
    | _ => exact List.nil_sublist _

theorem mem_undelivered {frames : List Frame} (hr : record ∈ frames.flatMap Frame.undelivered) :
    ∃ stage, (record, stage) ∈ frames.flatMap Frame.load ∧
      (stage = .queued ∨ stage = .completing .claim ∨ ∃ won, stage = .completing (.teardown won)) := by
  obtain ⟨f, hf, hm⟩ := List.mem_flatMap.mp hr
  have hload : ∀ stage, (record, stage) ∈ f.load → (record, stage) ∈ frames.flatMap Frame.load :=
    fun stage hl => List.mem_flatMap.mpr ⟨f, hf, hl⟩
  cases f with
  | batch queue count =>
    obtain ⟨action, ha, rfl⟩ := List.mem_map.mp hm
    exact ⟨.queued, hload _ (List.mem_map.mpr ⟨action, ha, rfl⟩), .inl rfl⟩
  | complete other completion stage =>
    cases stage with
    | claim =>
      obtain rfl := List.mem_singleton.mp hm
      exact ⟨.completing .claim, hload _ (List.mem_singleton.mpr rfl), .inr (.inl rfl)⟩
    | teardown won =>
      obtain rfl := List.mem_singleton.mp hm
      exact ⟨.completing (.teardown won), hload _ (List.mem_singleton.mpr rfl), .inr (.inr ⟨won, rfl⟩)⟩
    | receiver => cases hm
    | deliver => cases hm
  | _ => cases hm

/-- The frame by which a thread carries a record. -/
theorem Inv.frame_of_carried (h : Inv s place) {stage : Stage} (hp : place record = .carried t stage) :
    ∃ f ∈ s.stack t, (record, stage) ∈ f.load := by
  obtain ⟨f, hf, hm⟩ := List.mem_flatMap.mp ((h.carries.mem t record stage).mpr hp)
  exact ⟨f, hf, hm⟩

/-- Of an undelivered record, nothing is completed. -/
theorem Inv.undelivered (h : Inv s place) (hr : record ∈ s.undelivered t) :
    (∃ stage, place record = .carried t stage) ∧ (s.ops record).completions = [] := by
  obtain ⟨stage, hm, hstage⟩ := mem_undelivered hr
  have hp := (h.carries.mem t record stage).mp hm
  refine ⟨⟨stage, hp⟩, ?_⟩
  have hop := (h.ops record).stage
  rw [hp] at hop
  rcases hstage with rfl | rfl | ⟨won, rfl⟩
  · exact hop.2.2.2
  · exact hop.2.2.2
  · exact hop.2.2.2.2.1

theorem Inv.resident_slot (h : Inv s place) {fd : ℤ} {kind : Readiness}
    (hr : s.registry.resident fd kind = some record) :
    record.fd = fd ∧ record.kind = kind ∧ place record = .elsewhere .slot := by
  obtain ⟨rfl, rfl⟩ := h.sound.place fd kind record hr
  exact ⟨rfl, rfl, (h.slot record).mp hr⟩

theorem StageOk.once {o : Op} {p : RecordPlace} (h : StageOk o p) : o.completions.length ≤ 1 := by
  cases p with
  | carried u stage =>
    cases stage with
    | starting stage => simp [h.2.2.2.2.1]
    | queued => simp [h.2.2.2]
    | completing stage =>
      cases stage with
      | claim => simp [h.2.2.2]
      | teardown won => simp [h.2.2.2.2.1]
      | receiver => exact h.2.2.2.2.2.1.le
      | deliver =>
        rw [h.2.2.2.2]
        split <;> simp
  | elsewhere e =>
    cases e with
    | fresh => simp [h.2.2.2.2.2.1]
    | slot => simp [h.2.2.2.1]
    | gone =>
      rw [h.2.2.2.2]
      split <;> simp

/-- A started operation that is not abandoned is somewhere until its receiver is completed. -/
theorem Inv.kept (h : Inv s place) (hstarted : (s.ops record).started = true)
    (habandoned : (s.ops record).abandoned = false) :
    s.starting record ∨ s.registry.resident record.fd record.kind = some record ∨
      (∃ t, record ∈ s.undelivered t) ∨ (s.ops record).completions.length = 1 := by
  have hstage := (h.ops record).stage
  cases hp : place record with
  | carried t stage =>
    rw [hp] at hstage
    obtain ⟨f, hf, hm⟩ := h.frame_of_carried hp
    cases f with
    | start other stage' =>
      cases stage' <;> simp only [Frame.load, List.mem_singleton, Prod.mk.injEq, List.not_mem_nil] at hm
      · exact .inl ⟨t, .check, by rw [hm.1]; exact hf, .inl rfl⟩
      · exact .inl ⟨t, .install, by rw [hm.1]; exact hf, .inr (.inl rfl)⟩
      · exact .inl ⟨t, .locked, by rw [hm.1]; exact hf, .inr (.inr rfl)⟩
    | batch queue count =>
      obtain ⟨action, ha, heq⟩ := List.mem_map.mp hm
      refine .inr (.inr (.inl ⟨t, List.mem_flatMap.mpr ⟨_, hf, List.mem_map.mpr ⟨action, ha, ?_⟩⟩⟩))
      exact congrArg Prod.fst heq
    | complete other completion stage' =>
      simp only [Frame.load, List.mem_singleton, Prod.mk.injEq] at hm
      obtain ⟨rfl, rfl⟩ := hm
      cases stage' with
      | claim => exact .inr (.inr (.inl ⟨t, List.mem_flatMap.mpr ⟨_, hf, List.mem_singleton.mpr rfl⟩⟩))
      | teardown won =>
        exact .inr (.inr (.inl ⟨t, List.mem_flatMap.mpr ⟨_, hf, List.mem_singleton.mpr rfl⟩⟩))
      | receiver => exact .inr (.inr (.inr hstage.2.2.2.2.2.1))
      | deliver => exact .inr (.inr (.inr (by simpa [habandoned] using hstage.2.2.2.2)))
    | _ => cases hm
  | elsewhere e =>
    rw [hp] at hstage
    cases e with
    | fresh =>
      rw [hstage.1] at hstarted
      cases hstarted
    | slot => exact .inr (.inl ((h.slot record).mpr hp))
    | gone => exact .inr (.inr (.inr (by simpa [habandoned] using hstage.2.2.2.2)))

/-- When nothing runs, a waiter waits, and all else is delivered. -/
theorem Inv.settled (h : Inv s place) (hidle : ∀ t, s.stack t = [])
    (harmed : ∀ record, (s.ops record).tokenStopped = true → (s.ops record).callback ≠ .armed)
    (hstarted : (s.ops record).started = true) (habandoned : (s.ops record).abandoned = false) :
    (s.registry.resident record.fd record.kind = some record ∧ s.registry.stopped = false ∧
      (s.ops record).tokenStopped = false) ∨
    ((s.ops record).completions.length = 1 ∧ (s.ops record).delivered = true) := by
  have hop := h.ops record
  have hstage := hop.stage
  cases hp : place record with
  | carried t stage =>
    obtain ⟨f, hf, -⟩ := h.frame_of_carried hp
    rw [hidle t] at hf
    cases hf
  | elsewhere e =>
    rw [hp] at hstage
    cases e with
    | fresh =>
      rw [hstage.1] at hstarted
      cases hstarted
    | slot =>
      have hresident := (h.slot record).mpr hp
      refine .inl ⟨hresident, ?_, ?_⟩
      · by_contra hstopped
        rw [h.stopped (by simpa using hstopped)] at hresident
        cases hresident
      · -- A callback that was executed has requested the stop, and then nothing stays in a slot.
        by_contra htoken
        have htokenT : (s.ops record).tokenStopped = true := by simpa using htoken
        have hpossible := hop.token htokenT
        have hspent : (s.ops record).callback = .spent := by
          cases hcb : (s.ops record).callback with
          | absent => exact absurd hcb (hstage.2.2.2.2.2 hpossible)
          | armed => exact absurd hcb (harmed record htokenT)
          | running t =>
            obtain ⟨requested, hm⟩ := h.running t record hcb
            rw [hidle t] at hm
            cases hm
          | spent => rfl
        obtain ⟨t, f, hf, -⟩ := h.cancels record (hop.spent hspent) hp
        rw [hidle t] at hf
        cases hf
    | gone =>
      obtain ⟨-, -, hdiscarded, -, hlength⟩ := hstage
      refine .inr ⟨by simpa [habandoned] using hlength, ?_⟩
      by_contra hnot
      rw [hdiscarded (by simpa using hnot)] at habandoned
      cases habandoned

theorem Inv.destroyed (h : Inv s place) {v : ThreadId} (hd : (s.ops record).destroyed = some v) :
    (s.ops record).callback = .absent ∧ s.registry.resident record.fd record.kind ≠ some record ∧
      (∀ t, .callback record false ∉ s.stack t) ∧
      ∀ t completion, .complete record completion .receiver ∈ s.stack t → t = v := by
  have hop := h.ops record
  have habsent := (hop.destroyed (by rw [hd]; nofun)).2.1
  refine ⟨habsent, fun hr => ?_, fun t hm => ?_, fun t completion hm => ?_⟩
  · have hstage := hop.stage
    rw [(h.slot record).mp hr] at hstage
    rw [hstage.2.2.2.2.1] at hd
    cases hd
  · rw [h.runs t record hm] at habsent
    cases habsent
  · have hload : (record, Stage.completing .receiver) ∈ loads s.stack t :=
      List.mem_flatMap.mpr ⟨_, hm, List.mem_singleton.mpr rfl⟩
    exact hop.destroyer v t hd ((h.carries.mem t record _).mp hload)

theorem Inv.guarantees (h : Inv s place) : Guarantees s where
  pending := h.sound.pending
  keys := ⟨h.sound.nodup, h.sound.mem_keys⟩
  waiting := h.sound.waiting
  slots fd kind record hr := by
    obtain ⟨hfd, hkind, hp⟩ := h.resident_slot hr
    refine ⟨hfd, hkind, fun t hm => ?_⟩
    obtain ⟨⟨stage, hc⟩, -⟩ := h.undelivered hm
    rw [hp] at hc
    cases hc
  batches t := (undelivered_sublist (s.stack t)).nodup (h.carries.nodup t)
  threads t u record ht hu := by
    obtain ⟨⟨_, hp⟩, -⟩ := h.undelivered ht
    obtain ⟨⟨_, hq⟩, -⟩ := h.undelivered hu
    rw [hp] at hq
    cases hq
    rfl
  once record := (h.ops record).stage.once
  resident record hr := by
    have hstage := (h.ops record).stage
    rw [(h.slot record).mp hr] at hstage
    exact hstage.2.2.2.1
  undelivered t record hr := (h.undelivered hr).2
  kept _ := h.kept
  destroyed _ _ := h.destroyed
  settled hidle harmed _ := h.settled hidle harmed

/-- A second waiter of a descriptor in the same direction is handed the error, and nothing moves. -/
theorem second_waiter (h : Inv s place) {first : Record}
    (hst : s.stack t = .start record .locked :: rest)
    (hopen : ¬(s.registry.closed ∨ s.registry.stopped)) (hfd : ¬record.fd < 0)
    (hfirst : s.registry.resident record.fd record.kind = some first) (hs : s.advance t c = some s') :
    s'.stack t = .batch [(record, .error Registry.duplicateWaiter)] 1 :: .start record .returning :: rest ∧
      ∀ fd kind, s'.registry.resident fd kind = s.registry.resident fd kind := by
  unfold State.advance at hs
  rw [hst] at hs
  dsimp only at hs
  unfold State.advanceStart at hs
  dsimp only at hs
  split at hs
  · split at hs
    · next hentry =>
      obtain ⟨-, -, hnone⟩ := hentry
      rw [Registry.resident, hnone] at hfirst
      cases hfirst
    · cases hs
  · obtain ⟨-, hputs⟩ | ⟨completion, hresult, hkeeps, hduplicate⟩ :=
      Registry.startLocked_spec h.sound record c.fails c.again
    · rw [hputs.free] at hfirst
      cases hfirst
    · have hactions : (s.registry.start record c.fails c.again).2.1 = [(record, completion)] :=
        congrArg Prod.fst hresult
      have hpending : (s.registry.start record c.fails c.again).2.2 = false := congrArg Prod.snd hresult
      rw [hactions, hpending, if_neg Bool.false_ne_true] at hs
      cases hs
      obtain rfl := hduplicate first hopen hfd hfirst
      exact ⟨Function.update_self _ _ _, hkeeps.resident⟩

/-- **The registry loses, duplicates and outlives nothing.** In every reachable state the guarantees
hold, a second waiter gets its error and leaves the first in place, and no receiver is completed
after the destructor of its operation. -/
theorem registry_guarantees (h : Reachable State.step State.IsInitial s) :
    Guarantees s ∧
    (∀ t record rest c s' first, s.stack t = .start record .locked :: rest →
      ¬(s.registry.closed ∨ s.registry.stopped) → ¬record.fd < 0 →
      s.registry.resident record.fd record.kind = some first → s.advance t c = some s' →
      s'.stack t =
          .batch [(record, .error Registry.duplicateWaiter)] 1 :: .start record .returning :: rest ∧
        ∀ fd kind, s'.registry.resident fd kind = s.registry.resident fd kind) ∧
    ∀ record as u, (s.ops record).destroyed ≠ none → run State.step s as = some u →
      (u.ops record).completions = (s.ops record).completions := by
  obtain ⟨place, hinv⟩ := reachable_inv h
  exact ⟨hinv.guarantees, fun _ _ _ _ _ _ => second_waiter hinv,
    fun _ _ _ => completions_after_destroyed ⟨place, hinv⟩⟩

/-- Two readers of one descriptor: the first waits, and the second is completed with the error. -/
def twoReaders : List Label :=
  let begin := fun record => [Label.call 0 (.start record), .advance 0 {}, .advance 0 {}, .advance 0 {}]
  begin ⟨0, 5, .read⟩ ++ [.advance 0 {}, .advance 0 {}] ++ begin ⟨1, 5, .read⟩ ++
    [.advance 0 {}, .advance 0 {}, .advance 0 {}]

def idle : State where
  registry := { wake := 3, kernel := Function.update (fun _ => none) 3 (some {.pollIn}) }
  ops := fun _ => {}
  stack := fun _ => []

theorem registry_guarantees_two_readers : ∃ s, run State.step idle twoReaders = some s ∧ Guarantees s ∧
    s.registry.resident 5 .read = some ⟨0, 5, .read⟩ ∧
    (s.ops ⟨1, 5, .read⟩).completions = [.error Registry.duplicateWaiter] := by
  have hrun : (run State.step idle twoReaders).isSome = true := by decide
  obtain ⟨s, hs⟩ := Option.isSome_iff_exists.mp hrun
  have hresult : ∀ s', run State.step idle twoReaders = some s' →
      s'.registry.resident 5 .read = some ⟨0, 5, .read⟩ ∧
        (s'.ops ⟨1, 5, .read⟩).completions = [.error Registry.duplicateWaiter] := by
    have hdecide : ((run State.step idle twoReaders).all fun s' =>
        s'.registry.resident 5 .read = some ⟨0, 5, .read⟩ ∧
          (s'.ops ⟨1, 5, .read⟩).completions = [.error Registry.duplicateWaiter]) = true := by decide
    intro s' hs'
    rw [hs'] at hdecide
    simpa using hdecide
  have hreachable : Reachable State.step State.IsInitial s :=
    ⟨idle, ⟨rfl, fun _ => rfl, fun _ => ⟨false, rfl⟩⟩, twoReaders, hs⟩
  exact ⟨s, hs, (registry_guarantees hreachable).1, hresult s hs⟩

end CCForge.Epoll
