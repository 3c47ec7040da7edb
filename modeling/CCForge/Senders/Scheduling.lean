import CCForge.Senders.Guarantees

/-!
# Where completions arrive

`continues_on`, `on` and `affine` deliver on the scheduler they promise, whatever their
source does; `on` and `affine` change nothing else of a completion, up to the stops of
the schedule operations. The completion scheduler that a sender advertises for its values
is right for the senders whose adaptors pass values on.
-/

namespace CCForge.Senders

open Outcomes (Ends)

variable {α : Type}

namespace Scheduler

/-- Where a schedule operation completes that is started on `b`. -/
def place : Scheduler → Resource → Resource
  | inline, b => b
  | loop i, _ => .loop i
  | unstoppable s, b => s.place b

/-- A stop request can turn the schedule operation into a stopped one. -/
def stoppable : Scheduler → Env → Bool
  | inline, _ => false
  | loop _, env => env.getStopToken != .never
  | unstoppable s, env => s.stoppable (Env.unstoppable.join env)

/-- The loop of the scheduler. -/
def target : Scheduler → Option LoopId
  | inline => none
  | loop i => some i
  | unstoppable s => s.target

theorem place_of_target {sch : Scheduler} {i : LoopId} (h : sch.target = some i) (b : Resource) :
    sch.place b = .loop i := by
  induction sch with
  | inline => cases h
  | loop j =>
    cases h
    rfl
  | unstoppable s ih => exact ih h

theorem stoppable_of_never {sch : Scheduler} {env : Env} (h : env.getStopToken = .never) :
    sch.stoppable env = false := by
  induction sch generalizing env with
  | inline => rfl
  | loop i => simp [stoppable, h]
  | unstoppable s ih => exact ih rfl

@[simp] theorem stoppable_unstoppable (sch : Scheduler) (env : Env) :
    (unstoppable sch).stoppable env = false := by
  rw [stoppable]
  exact stoppable_of_never rfl

end Scheduler

theorem ends_resume {i : LoopId} {env : Env} {c : Completion α} {b : Resource} :
    Ends (resume i env) (c, b) ↔
      b = .loop i ∧ (c = .value [] ∨ c = .stopped ∧ env.getStopToken ≠ .never) := by
  rw [resume, Outcomes.ends_append, Outcomes.ends_tick, Outcomes.ends_pure]
  split
  · rename_i h
    have hnil : ¬ Ends ([] : Outcomes (Result α)) (c, b) := by
      rintro ⟨n, ⟨⟩⟩
    simp [h, hnil, and_comm]
  · rename_i h
    rw [Outcomes.ends_tick, Outcomes.ends_pure, Prod.mk.injEq, Prod.mk.injEq]
    constructor
    · rintro (⟨hc, hb⟩ | ⟨hc, hb⟩)
      · exact ⟨hb, .inl hc⟩
      · exact ⟨hb, .inr ⟨hc, h⟩⟩
    · rintro ⟨hb, hc | ⟨hc, _⟩⟩
      · exact .inl ⟨hc, hb⟩
      · exact .inr ⟨hc, hb⟩

variable [Decay α]

theorem ends_through {r : Receiver α} {m : Outcomes (Result α)} {c : Completion α} {b : Resource} :
    Ends (through r m) (c, b) ↔ ∃ c', Ends m (c', b) ∧ c = r.complete c' := by
  rw [through, Outcomes.ends_bind]
  constructor
  · rintro ⟨⟨c', b'⟩, hm, hc⟩
    cases Outcomes.ends_pure.mp (Outcomes.ends_tick.mp hc)
    exact ⟨c', hm, rfl⟩
  · rintro ⟨c', hm, rfl⟩
    exact ⟨(c', b), hm, Outcomes.ends_tick.mpr (Outcomes.ends_pure.mpr rfl)⟩

theorem ends_forward {m : Outcomes (Result α)} {cb : Result α} :
    Ends (through .forward m) cb ↔ Ends m cb := by
  obtain ⟨c, b⟩ := cb
  rw [ends_through]
  constructor
  · rintro ⟨c', hm, hc⟩
    cases c' <;> exact hc ▸ hm
  · intro hm
    refine ⟨c, hm, ?_⟩
    cases c <;> rfl

theorem Scheduler.ends_outcomes {sch : Scheduler} {env : Env} {b b' : Resource}
    {c : Completion α} :
    Ends (sch.outcomes env b) (c, b') ↔
      b' = sch.place b ∧ (c = .value [] ∨ c = .stopped ∧ sch.stoppable env = true) := by
  induction sch generalizing env with
  | inline =>
    simp [Scheduler.outcomes, Outcomes.ends_tick, Outcomes.ends_pure, place, stoppable, and_comm]
  | loop i => simp [Scheduler.outcomes, Outcomes.ends_tick, ends_resume, place, stoppable]
  | unstoppable s ih =>
    rw [Scheduler.outcomes, Outcomes.ends_tick, ends_forward, ih]
    rfl

/-- The completion that a source adaptor stored arrives where the scheduler completes, unless
a stop request gets to the schedule operation. -/
theorem ends_continuesOn {sch : Scheduler} {env : Env} {m : Outcomes (Result α)}
    {c : Completion α} {b : Resource} :
    Ends (continuesOnOutcomes sch env m) (c, b) ↔
      ∃ c₀ b₀, Ends m (c₀, b₀) ∧ b = sch.place b₀ ∧
        (c = storeCompletion c₀ ∨ c = .stopped ∧ sch.stoppable env = true) := by
  rw [continuesOnOutcomes, Outcomes.ends_bind]
  constructor
  · rintro ⟨⟨c₀, b₀⟩, hm, hc⟩
    obtain ⟨c', hc', rfl⟩ := ends_through.mp (Outcomes.ends_tick.mp hc)
    obtain ⟨hb, rfl | ⟨rfl, hs⟩⟩ := Scheduler.ends_outcomes.mp hc'
    · exact ⟨c₀, b₀, hm, hb, .inl rfl⟩
    · exact ⟨c₀, b₀, hm, hb, .inr ⟨rfl, hs⟩⟩
  · rintro ⟨c₀, b₀, hm, rfl, hc⟩
    refine ⟨(c₀, b₀), hm, Outcomes.ends_tick.mpr (ends_through.mpr ?_)⟩
    rcases hc with rfl | ⟨rfl, hs⟩
    · exact ⟨.value [], Scheduler.ends_outcomes.mpr ⟨rfl, .inl rfl⟩, rfl⟩
    · exact ⟨.stopped, Scheduler.ends_outcomes.mpr ⟨rfl, .inr ⟨rfl, hs⟩⟩, rfl⟩

theorem ends_startsOn {sch : Scheduler} {env : Env} {b b' : Resource}
    {m : Resource → Outcomes (Result α)} {c : Completion α} :
    Ends (startsOnOutcomes sch env b m) (c, b') ↔
      Ends (m (sch.place b)) (c, b') ∨
        c = .stopped ∧ b' = sch.place b ∧ sch.stoppable env = true := by
  rw [startsOnOutcomes, Outcomes.ends_bind]
  constructor
  · rintro ⟨⟨c₀, b₀⟩, hm, hc⟩
    obtain ⟨rfl, rfl | ⟨rfl, hs⟩⟩ := Scheduler.ends_outcomes.mp hm
    · exact .inl (ends_forward.mp (Outcomes.ends_tick.mp hc))
    · cases Outcomes.ends_pure.mp (Outcomes.ends_tick.mp hc)
      exact .inr ⟨rfl, rfl, hs⟩
  · rintro (hc | ⟨rfl, rfl, hs⟩)
    · exact ⟨(.value [], sch.place b), Scheduler.ends_outcomes.mpr ⟨rfl, .inl rfl⟩,
        Outcomes.ends_tick.mpr (ends_forward.mpr hc)⟩
    · exact ⟨(.stopped, sch.place b), Scheduler.ends_outcomes.mpr ⟨rfl, .inr ⟨rfl, hs⟩⟩,
        Outcomes.ends_tick.mpr (Outcomes.ends_pure.mpr rfl)⟩

namespace Sender

variable {s : Sender α} {env : Env} {b b' : Resource} {c : Completion α}

theorem ends_affine {orig : Scheduler} (h : env.startScheduler = some orig) :
    Ends ((affine s).outcomes env b) (c, b') ↔
      ∃ c₀ b₀, Ends (s.outcomes env b) (c₀, b₀) ∧ c = storeCompletion c₀ ∧ b' = orig.place b₀ := by
  simp only [outcomes, h, Option.elim, Outcomes.ends_tick, ends_continuesOn,
    Scheduler.stoppable_unstoppable, Bool.false_eq_true, and_false, or_false, Scheduler.place]
  simp only [and_comm]

theorem ends_on {sch orig : Scheduler} (h : env.startScheduler = some orig) :
    Ends ((on sch s).outcomes env b) (c, b') ↔
      ∃ c₀ b₀, (Ends (s.outcomes ((Env.ofScheduler sch).join env) (sch.place b)) (c₀, b₀) ∨
          c₀ = .stopped ∧ b₀ = sch.place b ∧ sch.stoppable env = true) ∧ b' = orig.place b₀ ∧
        (c = storeCompletion c₀ ∨ c = .stopped ∧ orig.stoppable env = true) := by
  simp only [outcomes, h, Option.elim, Outcomes.ends_tick, ends_continuesOn, ends_startsOn]

theorem ends_onClosure {adapted : Sender α} {orig : Scheduler}
    (h : s.getCompletionScheduler .value = some orig) :
    Ends ((onClosure s adapted).outcomes env b) (c, b') ↔
      ∃ c₀ b₀, Ends (adapted.outcomes env b) (c₀, b₀) ∧ b' = orig.place b₀ ∧
        (c = storeCompletion c₀ ∨ c = .stopped ∧ orig.stoppable env = true) := by
  simp only [outcomes, h, Option.elim, Outcomes.ends_tick, ends_continuesOn]

/-- An erased sender completes with what its source completes with. -/
theorem ends_erased {declared : List Sig} (h : (erased declared s).Connectable env) :
    Ends ((erased declared s).outcomes env b) (c, b') ↔ Ends (s.outcomes env.erased b) (c, b') := by
  rw [outcomes, Outcomes.ends_tick, eraseOutcomes, Outcomes.ends_bind]
  have hcov := s.outcomes_covered env.erased b h.1
  constructor
  · rintro ⟨⟨c₀, b₀⟩, hm, hc⟩
    obtain ⟨n, hn⟩ := hm
    obtain ⟨_, ⟨⟩, hsig⟩ := hcov n _ hn
    -- a completion of the source is declared, so its shape is found
    rw [eraseCompletion_of_mem (h.2 _ hsig)] at hc
    cases Outcomes.ends_pure.mp (Outcomes.ends_tick.mp hc)
    exact ⟨n, hn⟩
  · rintro ⟨n, hn⟩
    obtain ⟨_, ⟨⟩, hsig⟩ := hcov n _ hn
    refine ⟨(c, b'), ⟨n, hn⟩, ?_⟩
    rw [eraseCompletion_of_mem (h.2 _ hsig)]
    exact Outcomes.ends_tick.mpr (Outcomes.ends_pure.mpr rfl)

/-! ## Advertised completion schedulers -/

/-- The sender has no adaptor between it and its scheduling that turns a completion of
another kind into a value or continues with another sender. -/
def PassesValues : Sender α → Bool
  | uponError _ _ | uponStopped _ _ | letSender _ _ _ _ _ | stoppedAsOptional _ => false
  | thenSender s _ | bulk s _ _ | bulkChunked s _ _ | intoVariant s | stoppedAsError s _
  | writeEnv s _ | scheduleFrom s | startsOn _ s => s.PassesValues
  | just _ | justError _ | justStopped | readEnv _ | runLoop _ | inline | continuesOn _ _
  | on _ _ | onClosure _ _ | affine _ | erased _ _ => true

/-- A value of a receiver that passes values on stems from a value. -/
theorem value_of_through {r : Receiver α} {m : Outcomes (Result α)} {vs : List (Value α)}
    (h : Ends (through r m) (.value vs, b'))
    (hr : ∀ c', r.complete c' = .value vs → ∃ ws, c' = .value ws) :
    ∃ ws, Ends m (.value ws, b') := by
  obtain ⟨c', hm, hc⟩ := ends_through.mp h
  obtain ⟨ws, rfl⟩ := hr c' hc.symm
  exact ⟨ws, hm⟩

theorem value_arrives_on_advertised {sch : Scheduler} {i : LoopId} {vs : List (Value α)}
    (hp : s.PassesValues = true) (ha : s.getCompletionScheduler .value = some sch)
    (hi : sch.target = some i) (h : Ends (s.outcomes env b) (.value vs, b')) : b' = .loop i := by
  induction s generalizing env b vs with
  | just _ | justError _ | justStopped | readEnv _ | on _ _ _ | affine _ _ | erased _ _ _ =>
    -- these advertise no scheduler
    cases ha
  | uponError _ _ _ | uponStopped _ _ _ | letSender _ _ _ _ _ _ _ | stoppedAsOptional _ _ =>
    -- these make values of other completions
    cases hp
  | runLoop j =>
    cases ha
    cases hi
    exact (ends_resume.mp (Outcomes.ends_tick.mp h)).1
  | inline =>
    cases ha
    cases hi
  | thenSender s fn ih | bulk s shape fn ih | bulkChunked s shape fn ih | intoVariant s ih
  | stoppedAsError s e ih =>
    obtain ⟨ws, hw⟩ := value_of_through (Outcomes.ends_tick.mp h) fun c' hc => by
      cases c' with
      | value ws => exact ⟨ws, rfl⟩
      | error e => cases hc
      | stopped => cases hc
    exact ih hp ha hw
  | writeEnv s overlay ih => exact ih hp ha (ends_forward.mp (Outcomes.ends_tick.mp h))
  | scheduleFrom s ih => exact ih hp ha (Outcomes.ends_tick.mp h)
  | continuesOn s sch' _ =>
    cases ha
    obtain ⟨_, b₀, _, rfl, _⟩ := ends_continuesOn.mp (Outcomes.ends_tick.mp h)
    exact Scheduler.place_of_target hi b₀
  | startsOn sch' s ih =>
    rcases ends_startsOn.mp (Outcomes.ends_tick.mp h) with hs | ⟨hc, _, _⟩
    · exact ih hp ha hs
    · cases hc
  | onClosure s adapted _ _ =>
    obtain ⟨_, b₀, _, rfl, _⟩ := (ends_onClosure ha).mp h
    exact Scheduler.place_of_target hi b₀

end Sender

/-! ## Over whole runs -/

section

variable {st : State α} {op : Op α} {c : Completion α} {b : Resource} {i : LoopId}

/-- `on(sch, s)` completes on the loop the receiver started on, wherever `s` went: with what
`s` completed with, started on `sch`, or stopped by one of the two schedule operations. -/
theorem on_returns_to_start_scheduler (h : Reachable State.step State.IsInitial st)
    (hop : op ∈ st.ops) (hc : op.status = .completed c b) {sch orig : Scheduler} {s : Sender α}
    (hs : op.connection.sender = .on sch s)
    (ho : op.connection.env.startScheduler = some orig) (hi : orig.target = some i) :
    b = .loop i ∧
      ((∃ c₀ b₀, Ends (s.outcomes ((Env.ofScheduler sch).join op.connection.env)
          (sch.place op.origin)) (c₀, b₀) ∧ c = storeCompletion c₀) ∨
        c = .stopped ∧ (sch.stoppable op.connection.env = true ∨
          orig.stoppable op.connection.env = true)) := by
  obtain ⟨hout, -⟩ := operations_refine_outcomes h hop hc
  rw [hs] at hout
  obtain ⟨c₀, b₀, hsrc, rfl, hcase⟩ := (Sender.ends_on ho).mp hout
  refine ⟨Scheduler.place_of_target hi b₀, ?_⟩
  rcases hcase with rfl | ⟨rfl, hstop⟩
  · rcases hsrc with hsrc | ⟨rfl, _, hstop⟩
    · exact .inl ⟨c₀, b₀, hsrc, rfl⟩
    · exact .inr ⟨rfl, .inl hstop⟩
  · exact .inr ⟨rfl, .inr hstop⟩

/-- A value sent on loop 1 for a receiver that started on loop 0. -/
def onJust : Connection ℕ where
  sender := .on (.loop 1) (.just [.object 0 5])
  env := { startScheduler := some (.loop 0), stopToken := some (.inplace 3) }
  connectable := ⟨rfl, trivial, by decide⟩

theorem on_returns_to_start_scheduler_value : ∃ st : State ℕ,
    Reachable State.step State.IsInitial st ∧
    ⟨onJust, .thread 0, .completed (.value [.object 0 5]) (.loop 0)⟩ ∈ st.ops ∧
    (Resource.loop 0 = .loop 0 ∧
      ((∃ c₀ b₀, Ends ((Sender.just [.object 0 5]).outcomes
          ((Env.ofScheduler (.loop 1)).join onJust.env) ((Scheduler.loop 1).place (.thread 0)))
            (c₀, b₀) ∧ Completion.value [.object 0 5] = storeCompletion c₀) ∨
        (Completion.value [.object 0 5] : Completion ℕ) = .stopped ∧
          ((Scheduler.loop 1).stoppable onJust.env = true ∨
            (Scheduler.loop 0).stoppable onJust.env = true))) := by
  obtain ⟨st, hs, hop⟩ : ∃ st, run State.step {}
      [.start (.thread 0) onJust, .advance 0, .advance 0, .advance 0, .advance 0, .advance 0,
        .runTask 1 0, .advance 0, .advance 0, .advance 0, .advance 0, .advance 0, .runTask 0 0,
        .advance 0, .advance 0] = some st ∧
      st.ops[0]? = some ⟨onJust, .thread 0, .completed (.value [.object 0 5]) (.loop 0)⟩ :=
    ⟨_, rfl, rfl⟩
  have hr : Reachable State.step State.IsInitial st := ⟨_, rfl, _, hs⟩
  have hm := List.mem_of_getElem? hop
  exact ⟨st, hr, hm, on_returns_to_start_scheduler hr hm rfl rfl rfl rfl⟩

/-- `affine(s)` completes on the loop the receiver started on, with what `s` completed with:
no stop request turns it into a stopped completion on the way. -/
theorem affine_keeps_completion (h : Reachable State.step State.IsInitial st)
    (hop : op ∈ st.ops) (hc : op.status = .completed c b) {orig : Scheduler} {s : Sender α}
    (hs : op.connection.sender = .affine s)
    (ho : op.connection.env.startScheduler = some orig) (hi : orig.target = some i) :
    b = .loop i ∧
      ∃ c₀ b₀, Ends (s.outcomes op.connection.env op.origin) (c₀, b₀) ∧ c = storeCompletion c₀ := by
  obtain ⟨hout, -⟩ := operations_refine_outcomes h hop hc
  rw [hs] at hout
  obtain ⟨c₀, b₀, hsrc, rfl, rfl⟩ := (Sender.ends_affine ho).mp hout
  exact ⟨Scheduler.place_of_target hi b₀, c₀, b₀, hsrc, rfl⟩

/-- An error brought back to loop 0, for a receiver with a stop token. -/
def affineError : Connection ℕ where
  sender := .affine (.justError (.object 1 2))
  env := { startScheduler := some (.loop 0), stopToken := some (.inplace 3) }
  connectable := ⟨rfl, trivial, by decide⟩

/-- The stop requested before the task runs does not get to it. -/
theorem affine_keeps_completion_requested : ∃ st : State ℕ,
    Reachable State.step State.IsInitial st ∧ st.requested 3 = true ∧
    ⟨affineError, .thread 0, .completed (.error (.object 1 2)) (.loop 0)⟩ ∈ st.ops ∧
    (Resource.loop 0 = .loop 0 ∧
      ∃ c₀ b₀, Ends ((Sender.justError (.object 1 2)).outcomes affineError.env (.thread 0))
        (c₀, b₀) ∧ Completion.error (.object 1 2) = storeCompletion c₀) := by
  obtain ⟨st, hs, hreq, hop⟩ : ∃ st, run State.step {}
      [.requestStop 3, .start (.thread 0) affineError, .advance 0, .advance 0, .advance 0,
        .advance 0, .advance 0, .advance 0, .advance 0, .runTask 0 0, .advance 0, .advance 0,
        .advance 0] = some st ∧ st.requested 3 = true ∧
      st.ops[0]? = some ⟨affineError, .thread 0, .completed (.error (.object 1 2)) (.loop 0)⟩ :=
    ⟨_, rfl, rfl, rfl⟩
  have hr : Reachable State.step State.IsInitial st := ⟨_, rfl, _, hs⟩
  have hm := List.mem_of_getElem? hop
  exact ⟨st, hr, hreq, hm, affine_keeps_completion hr hm rfl rfl rfl rfl⟩

/-- A value arrives on the loop of the completion scheduler that the sender advertises. -/
theorem advertised_scheduler_completes (h : Reachable State.step State.IsInitial st)
    (hop : op ∈ st.ops) {vs : List (Value α)} (hc : op.status = .completed (.value vs) b)
    {sch : Scheduler} (hp : op.connection.sender.PassesValues = true)
    (ha : op.connection.sender.getCompletionScheduler .value = some sch)
    (hi : sch.target = some i) : b = .loop i :=
  Sender.value_arrives_on_advertised hp ha hi (operations_refine_outcomes h hop hc).1

def variantOnLoop : Connection ℕ where
  sender := .intoVariant (.continuesOn (.just []) (.loop 2))
  env := {}
  connectable := ⟨trivial, by decide⟩

theorem advertised_scheduler_completes_variant : ∃ st : State ℕ,
    Reachable State.step State.IsInitial st ∧
    ⟨variantOnLoop, .thread 0,
      .completed (.value [.variant [.tuple []] (.tuple [])]) (.loop 2)⟩ ∈ st.ops ∧
    Resource.loop 2 = .loop 2 := by
  obtain ⟨st, hs, hop⟩ : ∃ st, run State.step {}
      [.start (.thread 0) variantOnLoop, .advance 0, .advance 0, .advance 0, .advance 0,
        .advance 0, .runTask 2 0, .advance 0, .advance 0, .advance 0] = some st ∧
      st.ops[0]? = some ⟨variantOnLoop, .thread 0,
        .completed (.value [.variant [.tuple []] (.tuple [])]) (.loop 2)⟩ := ⟨_, rfl, rfl⟩
  have hr : Reachable State.step State.IsInitial st := ⟨_, rfl, _, hs⟩
  have hm := List.mem_of_getElem? hop
  exact ⟨st, hr, hm, advertised_scheduler_completes hr hm rfl rfl rfl rfl⟩

/-- The receiver of an erased sender gets what the source completed with, where the source
completed: every payload finds its own shape among the declared ones. -/
theorem erased_sender_passes_completions (h : Reachable State.step State.IsInitial st)
    (hop : op ∈ st.ops) (hc : op.status = .completed c b) {declared : List Sig} {s : Sender α}
    (hs : op.connection.sender = .erased declared s) :
    Ends (s.outcomes op.connection.env.erased op.origin) (c, b) ∧
      c.sig ∈ s.completionSignatures op.connection.env.erased ∧
      eraseCompletion declared c = some c := by
  obtain ⟨hout, -⟩ := operations_refine_outcomes h hop hc
  have hcon := op.connection.connectable
  rw [hs] at hout hcon
  obtain ⟨n, hsrc⟩ := (Sender.ends_erased hcon).mp hout
  obtain ⟨_, ⟨⟩, hsig⟩ := s.outcomes_covered _ _ hcon.1 n _ hsrc
  exact ⟨⟨n, hsrc⟩, hsig, eraseCompletion_of_mem (hcon.2 _ hsig)⟩

/-- Two shapes of values and an error are declared, and the second shape arrives. -/
def erasedPair : Connection ℕ where
  sender := .erased [.setError .exceptionPtr, .setValue [], .setValue [.object 0, .object 1],
      .setStopped] (.continuesOn (.just [.object 0 5, .object 1 6]) (.loop 2))
  env := { stopToken := some (.inplace 3) }
  connectable := ⟨⟨trivial, by decide⟩, by decide⟩

theorem erased_sender_passes_completions_pair : ∃ st : State ℕ,
    Reachable State.step State.IsInitial st ∧
    ⟨erasedPair, .thread 0, .completed (.value [.object 0 5, .object 1 6]) (.loop 2)⟩ ∈ st.ops ∧
    (Ends ((Sender.continuesOn (.just [.object 0 5, .object 1 6]) (.loop 2)).outcomes
        erasedPair.env.erased (.thread 0)) (.value [.object 0 5, .object 1 6], .loop 2) ∧
      (Completion.value [.object 0 5, .object 1 6] : Completion ℕ).sig ∈
        (Sender.continuesOn (.just [.object 0 5, .object 1 6]) (.loop 2)).completionSignatures
          erasedPair.env.erased ∧
      eraseCompletion [.setError .exceptionPtr, .setValue [], .setValue [.object 0, .object 1],
        .setStopped] (Completion.value [.object 0 5, .object 1 6] : Completion ℕ) =
        some (.value [.object 0 5, .object 1 6])) := by
  obtain ⟨st, hs, hop⟩ : ∃ st, run State.step {}
      [.start (.thread 0) erasedPair, .advance 0, .advance 0, .advance 0, .advance 0,
        .advance 0, .runTask 2 0, .advance 0, .advance 0, .advance 0] = some st ∧
      st.ops[0]? = some ⟨erasedPair, .thread 0,
        .completed (.value [.object 0 5, .object 1 6]) (.loop 2)⟩ := ⟨_, rfl, rfl⟩
  have hr : Reachable State.step State.IsInitial st := ⟨_, rfl, _, hs⟩
  have hm := List.mem_of_getElem? hop
  exact ⟨st, hr, hm, erased_sender_passes_completions hr hm rfl rfl⟩

end

end CCForge.Senders
