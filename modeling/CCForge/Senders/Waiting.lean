import CCForge.Senders.Guarantees

/-!
# Waiting for a sender

`sync_wait` and `wait_result_of` start an operation and run a loop of their own on the calling
thread until it completes. A sender that schedules on nothing but that loop needs no other
thread. The result has a type that the completion signatures determine.
-/

namespace CCForge.Senders

open Outcomes (bound Ends)

variable {α : Type}

/-! ## Results -/

/-- `single_value_or_variant_from_list`. -/
def singleValueOrVariant : List (List CppType) → CppType
  | [] => .tuple []
  | [ts] => .tuple ts
  | tss => .variant (tss.map .tuple)

/-- `value_from_tuple` for the values that a sender with these signatures sends. -/
def valueFromTuple (cs : List Sig) (vs : List (Value α)) : Value α :=
  if singleValueOrVariant (valueList cs) = .tuple (types vs) then .tuple vs
  else .variant ((valueList cs).map .tuple) (.tuple vs)

/-- `__error_list_t`. -/
def waitErrorList (cs : List Sig) : List CppType := shapePushUnique (errorList cs) .exceptionPtr

/-- `__single_error_or_variant`. -/
def singleErrorOrVariant : List CppType → CppType
  | [t] => t
  | ts => .variant ts

/-- `__make_error`. -/
def makeError (cs : List Sig) (e : Value α) : Value α :=
  if singleErrorOrVariant (waitErrorList cs) = e.type then e else .variant (waitErrorList cs) e

/-- The variant in `wait_result_value`, once the operation completed. -/
inductive WaitResult (α : Type) where
  | value (value : Value α)
  | error (error : Value α)
  | stopped

namespace WaitResult

variable [Decay α]

/-- `__receiver` of `wait_result_of`. -/
def receive (cs : List Sig) : Completion α → WaitResult α
  | .value vs =>
    match constructAll vs with
    | none => .value (valueFromTuple cs vs)
    | some e => .error (makeError cs (.exceptionPtr e))
  | .error e =>
    match Decay.construct e with
    | none => .error (makeError cs e)
    | some e' => .error (makeError cs (.exceptionPtr e'))
  | .stopped => .stopped

omit [Decay α] in
/-- `error_if`. -/
def errorIf (t : CppType) : WaitResult α → Option (Value α)
  | error e =>
    if e.type = t then some e
    else match e with
      | .variant alternatives e' => if t ∈ alternatives ∧ e'.type = t then some e' else none
      | _ => none
  | _ => none

omit [Decay α] in
/-- The type of the result is the one that is computed from the signatures. -/
def HasType (cs : List Sig) : WaitResult α → Prop
  | value v => v.type = singleValueOrVariant (valueList cs)
  | error e => e.type = singleErrorOrVariant (waitErrorList cs)
  | stopped => .setStopped ∈ cs

end WaitResult

/-- What `sync_wait` returns or throws. An `error_code` is wrapped in a `system_error`. -/
def syncWaitResult [Decay α] (cs : List Sig) (wrap : Value α → Value α) :
    Completion α → Except (Value α) (Option (Value α))
  | .value vs =>
    match constructAll vs with
    | none => .ok (some (valueFromTuple cs vs))
    | some e => .error e
  | .error (.exceptionPtr e) => .error e
  | .error e => .error ((Decay.construct e).getD (wrap e))
  | .stopped => .ok none

theorem mem_waitErrorList {cs : List Sig} {t : CppType} :
    t ∈ waitErrorList cs ↔ t ∈ errorList cs ∨ t = .exceptionPtr :=
  mem_shapePushUnique

theorem type_valueFromTuple {cs : List Sig} {vs : List (Value α)}
    (h : .setValue (types vs) ∈ cs) :
    (valueFromTuple cs vs).type = singleValueOrVariant (valueList cs) := by
  have hm := mem_valueList h
  unfold valueFromTuple
  split
  · rename_i he
    rw [he]
    simp [Value.type]
  · rename_i hne
    -- more than one tuple type, or the only one would be this one
    cases hl : valueList cs with
    | nil =>
      rw [hl] at hm
      cases hm
    | cons ts tss =>
      cases tss with
      | nil =>
        rw [hl] at hm hne
        cases List.mem_singleton.mp hm
        exact absurd rfl hne
      | cons us tss => simp [Value.type, singleValueOrVariant]

theorem type_syncWaitResult [Decay α] {cs : List Sig} {c : Completion α} (h : c.sig ∈ cs)
    {wrap : Value α → Value α} {v : Value α} (hv : syncWaitResult cs wrap c = .ok (some v)) :
    v.type = singleValueOrVariant (valueList cs) := by
  unfold syncWaitResult at hv
  split at hv
  · split at hv
    · cases hv
      exact type_valueFromTuple h
    · cases hv
  · cases hv
  · cases hv
  · cases hv

theorem sizeOf_lt_variant {t : CppType} {ts : List CppType} (h : t ∈ ts) :
    sizeOf t < sizeOf (CppType.variant ts) := by
  have := List.sizeOf_lt_of_mem h
  simp only [CppType.variant.sizeOf_spec]
  omega

theorem variant_ne_of_mem {t : CppType} {ts : List CppType} (h : t ∈ ts) :
    CppType.variant ts ≠ t := by
  intro he
  have := sizeOf_lt_variant h
  rw [he] at this
  omega

theorem eq_singleton {t : CppType} {ts : List CppType} (h : t ∈ ts)
    (hs : singleErrorOrVariant ts = t) : ts = [t] := by
  cases ts with
  | nil => cases h
  | cons u ts =>
    cases ts with
    | nil => rw [List.mem_singleton.mp h]
    | cons v ts => exact absurd hs (variant_ne_of_mem h)

theorem type_makeError {cs : List Sig} {e : Value α} (h : e.type ∈ waitErrorList cs) :
    (makeError cs e).type = singleErrorOrVariant (waitErrorList cs) := by
  unfold makeError
  split
  · rename_i he
    exact he.symm
  · rename_i hne
    cases hl : waitErrorList cs with
    | nil =>
      rw [hl] at h
      cases h
    | cons t ts =>
      cases ts with
      | nil =>
        rw [hl] at h hne
        cases List.mem_singleton.mp h
        exact absurd rfl hne
      | cons u ts => simp [Value.type, singleErrorOrVariant]

namespace WaitResult

variable [Decay α]

/-- The receiver of a wait can store every completion that the signatures announce. -/
theorem receive_hasType {cs : List Sig} {c : Completion α} (h : c.sig ∈ cs) :
    (receive cs c).HasType cs := by
  have hthrown : ∀ e : Value α, (Value.exceptionPtr e).type ∈ waitErrorList cs := fun e =>
    mem_waitErrorList.mpr (.inr (type_exceptionPtr e))
  cases c with
  | value vs =>
    cases hc : constructAll vs with
    | none =>
      rw [receive, hc]
      exact type_valueFromTuple h
    | some e =>
      rw [receive, hc]
      exact type_makeError (hthrown e)
  | error e =>
    cases hc : Decay.construct e with
    | none =>
      rw [receive, hc]
      exact type_makeError (mem_waitErrorList.mpr (.inl (mem_errorList h)))
    | some e' =>
      rw [receive, hc]
      exact type_makeError (hthrown e')
  | stopped => exact h

/-- `error_if` finds the error that was sent, under its own type and no other of the list. -/
theorem errorIf_receive {cs : List Sig} {e : Value α} {t : CppType} (h : .setError e.type ∈ cs)
    (hc : Decay.construct e = none) (ht : t ∈ waitErrorList cs) :
    (receive cs (.error e)).errorIf t = if e.type = t then some e else none := by
  have hmem : e.type ∈ waitErrorList cs := mem_waitErrorList.mpr (.inl (mem_errorList h))
  have hr : receive cs (.error e) = .error (makeError cs e) := by rw [receive, hc]
  rw [hr]
  unfold makeError
  split
  · rename_i hsingle
    rw [eq_singleton hmem hsingle, List.mem_singleton] at ht
    simp [errorIf, ht]
  · have hne : (Value.variant (waitErrorList cs) e).type ≠ t := by
      simp only [Value.type]
      exact variant_ne_of_mem ht
    simp only [errorIf, if_neg hne, ht, true_and]

end WaitResult

/-! ## The waiting thread -/

/-- `sync_wait_env`, and with a stop token `__env` of `wait_result_of`. -/
def waitEnv (i : LoopId) (stopToken : Option StopToken) : Env where
  scheduler := some (.loop i)
  startScheduler := some (.loop i)
  delegationScheduler := some (.loop i)
  stopToken := stopToken

namespace Scheduler

/-- Scheduling on it takes no other loop. -/
def uses (i : LoopId) : Scheduler → Bool
  | inline => true
  | loop j => j == i
  | unstoppable s => s.uses i

end Scheduler

def Env.uses (i : LoopId) (env : Env) : Bool := env.startScheduler.all (Scheduler.uses i)

theorem Env.uses_join {i : LoopId} {overlay base : Env} (h : overlay.uses i = true)
    (hb : base.uses i = true) : (overlay.join base).uses i = true := by
  unfold Env.uses Env.join at *
  cases ho : overlay.startScheduler with
  | none => simpa [ho] using hb
  | some sch => simpa [ho] using h

theorem Env.uses_ofScheduler {i : LoopId} {sch : Scheduler} (h : sch.uses i = true) :
    (Env.ofScheduler sch).uses i = true := by
  simpa [Env.uses, Env.ofScheduler] using h

namespace Sender

/-- The sender schedules on no other loop. -/
def Uses (i : LoopId) : Sender α → Prop
  | runLoop j => j = i
  | just _ | justError _ | justStopped | readEnv _ | inline => True
  | thenSender s _ | uponError s _ | uponStopped s _ | bulk s _ _ | bulkChunked s _ _
  | intoVariant s | stoppedAsOptional s | stoppedAsError s _ | scheduleFrom s | affine s
  | erased _ s => s.Uses i
  | letSender _ s _ _ inner => s.Uses i ∧ ∀ vs, (inner vs).Uses i
  | writeEnv s overlay => s.Uses i ∧ overlay.uses i = true
  | continuesOn s sch | startsOn sch s | on sch s => s.Uses i ∧ sch.uses i = true
  | onClosure s adapted => s.Uses i ∧ adapted.Uses i

theorem uses_schedule {i : LoopId} {sch : Scheduler} (h : sch.uses i = true) :
    (sch.schedule : Sender α).Uses i := by
  induction sch with
  | inline => trivial
  | loop j => simpa [Scheduler.schedule, Uses, Scheduler.uses] using h
  | unstoppable s ih => exact ⟨ih h, rfl⟩

theorem uses_completionScheduler {i : LoopId} {s : Sender α} {tag : Tag} {sch : Scheduler}
    (h : s.Uses i) (hs : s.getCompletionScheduler tag = some sch) : sch.uses i = true := by
  induction s with
  | just _ | justError _ | justStopped | readEnv _ | on _ _ _ | affine _ _ | erased _ _ _ => cases hs
  | runLoop j =>
    have hj : j = i := h
    rw [getCompletionScheduler] at hs
    split at hs
    · cases hs
    · cases hs
      simp [Scheduler.uses, hj]
  | inline =>
    rw [getCompletionScheduler] at hs
    split at hs
    · cases hs
      rfl
    · cases hs
  | continuesOn s sch' ih =>
    rw [getCompletionScheduler] at hs
    split at hs
    · cases hs
    · cases hs
      exact h.2
  | thenSender s fn ih | uponError s fn ih | uponStopped s fn ih | bulk s shape fn ih
  | bulkChunked s shape fn ih | intoVariant s ih | stoppedAsOptional s ih | stoppedAsError s e ih
  | scheduleFrom s ih => exact ih h hs
  | letSender which s declared throws inner ih _ => exact ih h.1 hs
  | writeEnv s overlay ih | startsOn sch' s ih | onClosure s adapted ih _ => exact ih h.1 hs

theorem uses_makeLetEnv {i : LoopId} {which : Tag} {s : Sender α} (h : s.Uses i) :
    (makeLetEnv which s).uses i = true := by
  unfold makeLetEnv
  cases hs : s.getCompletionScheduler which with
  | none => rfl
  | some sch => exact Env.uses_ofScheduler (uses_completionScheduler h hs)

end Sender

/-- The frame continues on no other loop. -/
def Frame.Uses (i : LoopId) : Frame α → Prop
  | receiver _ | erased _ => True
  | letOuter _ _ inner env => (∀ vs, (inner vs).Uses i) ∧ env.uses i = true
  | up sch env => sch.uses i = true ∧ env.uses i = true
  | sched s env => s.Uses i ∧ env.uses i = true

def Control.Uses (i : LoopId) : Control α → Prop
  | start s env κ => s.Uses i ∧ env.uses i = true ∧ ∀ F ∈ κ, F.Uses i
  | complete _ κ => ∀ F ∈ κ, F.Uses i

def Next.Uses (i : LoopId) : Next α → Prop
  | run k => k.Uses i
  | park j _ κ => j = i ∧ ∀ F ∈ κ, F.Uses i
  | deliver _ | stuck => True

variable {i : LoopId}

theorem uses_cons {F : Frame α} {κ : List (Frame α)} (h : F.Uses i) (hκ : ∀ G ∈ κ, G.Uses i) :
    ∀ G ∈ F :: κ, G.Uses i := by
  intro G hG
  rcases List.mem_cons.mp hG with rfl | hG
  · exact h
  · exact hκ G hG

variable [Decay α]

theorem Sender.uses_start {s : Sender α} {env : Env} {κ : List (Frame α)} (h : s.Uses i)
    (henv : env.uses i = true) (hκ : ∀ F ∈ κ, F.Uses i) : (s.start env κ).Uses i := by
  cases s with
  | just _ | justError _ | justStopped | inline => exact hκ
  | readEnv q =>
    rw [start]
    cases (q.ask env : Option (Value α)) with
    | none => trivial
    | some v => exact hκ
  | runLoop j => exact ⟨h, hκ⟩
  | thenSender s fn | uponError s fn | uponStopped s fn | bulk s shape fn
  | bulkChunked s shape fn | intoVariant s | stoppedAsOptional s | stoppedAsError s e =>
    exact ⟨h, henv, uses_cons trivial hκ⟩
  | letSender which s declared throws inner =>
    exact ⟨h.1, henv, uses_cons ⟨h.2, Env.uses_join (uses_makeLetEnv h.1) henv⟩ hκ⟩
  | writeEnv s overlay => exact ⟨h.1, Env.uses_join h.2 henv, uses_cons trivial hκ⟩
  | scheduleFrom s => exact ⟨h, henv, hκ⟩
  | continuesOn s sch => exact ⟨h.1, henv, uses_cons ⟨h.2, henv⟩ hκ⟩
  | startsOn sch s =>
    exact ⟨uses_schedule h.2, henv,
      uses_cons ⟨h.1, Env.uses_join (Env.uses_ofScheduler h.2) henv⟩ hκ⟩
  | on sch s =>
    rw [start]
    cases ho : env.startScheduler with
    | none => trivial
    | some orig =>
      have huses : orig.uses i = true := by simpa [Env.uses, ho] using henv
      exact ⟨⟨h, huses⟩, henv, hκ⟩
  | onClosure s adapted =>
    rw [start]
    cases ho : s.getCompletionScheduler .value with
    | none => trivial
    | some orig => exact ⟨⟨h.2, uses_completionScheduler h.1 ho⟩, henv, hκ⟩
  | affine s =>
    rw [start]
    cases ho : env.startScheduler with
    | none => trivial
    | some orig =>
      have huses : orig.uses i = true := by simpa [Env.uses, ho] using henv
      exact ⟨⟨h, huses⟩, henv, hκ⟩
  | erased declared s => exact ⟨h, rfl, uses_cons trivial hκ⟩

theorem Frame.uses_receive {F : Frame α} {c : Completion α} {κ : List (Frame α)} (h : F.Uses i)
    (hκ : ∀ G ∈ κ, G.Uses i) : (F.receive κ c).Uses i := by
  cases F with
  | receiver r => exact hκ
  | letOuter which throws inner env =>
    rw [receive]
    cases ha : which.arguments c with
    | none => exact hκ
    | some vs =>
      cases ht : (constructAll vs).or (throws vs) with
      | none =>
        simp only [ht]
        exact ⟨h.1 vs, h.2, uses_cons trivial hκ⟩
      | some e =>
        simp only [ht]
        exact hκ
  | up sch env => exact ⟨Sender.uses_schedule h.1, h.2, uses_cons trivial hκ⟩
  | sched s env =>
    cases c with
    | value vs => exact ⟨h.1, h.2, uses_cons trivial hκ⟩
    | error e => exact hκ
    | stopped => exact hκ
  | erased declared =>
    rw [receive]
    cases eraseCompletion declared c with
    | none => trivial
    | some c' => exact hκ

theorem Control.uses_next {k : Control α} (h : k.Uses i) : k.next.Uses i := by
  cases k with
  | start s env κ => exact Sender.uses_start h.1 h.2.1 h.2.2
  | complete c κ =>
    cases κ with
    | nil => trivial
    | cons F κ =>
      exact Frame.uses_receive (h F List.mem_cons_self) fun G hG => h G (List.mem_cons_of_mem F hG)

/-! ## The waiting thread alone -/

def Connection.Uses (i : LoopId) (c : Connection α) : Prop :=
  c.sender.Uses i ∧ c.env.uses i = true

/-- Where an operation is that was started on `origin` and uses no other loop than `i`. -/
def Status.Confined (i : LoopId) (origin : Resource) : Status α → Prop
  | running a k => (a.resource = origin ∨ a.resource = .loop i) ∧ k.Uses i
  | parked j _ κ => j = i ∧ ∀ F ∈ κ, F.Uses i
  | completed _ b => b = origin ∨ b = .loop i

def Op.Confined (op : Op α) : Prop := ∀ i, op.connection.Uses i → op.status.Confined i op.origin

namespace State

variable {s u : State α} {n t : ℕ} {op : Op α} {st : Status α}

/-- Steps that thread `t` makes, in `start` of an operation and in `run` of its loop `i`. -/
def byWaiter (t : ℕ) (i : LoopId) (s : State α) : Label α → Bool
  | .advance n => s.ops[n]?.any fun op => op.status.agent.any fun a =>
      a.resource == .thread t || a.resource == .loop i
  | .runTask j _ => j == i
  | .start _ _ | .requestStop _ => false

def waitStep (t : ℕ) (i : LoopId) (s : State α) (l : Label α) : Option (State α) :=
  if s.byWaiter t i l then s.step l else none

theorem step_of_waitStep {l : Label α} (h : s.waitStep t i l = some u) :
    l.Works ∧ s.step l = some u := by
  unfold waitStep at h
  split at h
  · rename_i hb
    refine ⟨?_, h⟩
    cases l with
    | advance n => trivial
    | runTask j caller => trivial
    | start a c => cases hb
    | requestStop source => cases hb
  · cases h

theorem confined_setStatus (h : ∀ op ∈ s.ops, op.Confined)
    (hst : ∀ i, op.connection.Uses i → st.Confined i op.origin) :
    ∀ op' ∈ (s.setStatus n op st).ops, op'.Confined := by
  intro op' hm
  rcases List.mem_or_eq_of_mem_set hm with hm | rfl
  · exact h op' hm
  · exact hst

theorem confined_step {l : Label α} (hinv : s.Inv) (h : ∀ op ∈ s.ops, op.Confined)
    (hs : s.step l = some u) : ∀ op ∈ u.ops, op.Confined := by
  -- what a running operation does next keeps to its thread and the loop
  have hnext : ∀ {n : ℕ} {op : Op α} {a : Agent} {k : Control α}, s.ops[n]? = some op →
      op.status = .running a k → ∀ i, op.connection.Uses i →
        (a.resource = op.origin ∨ a.resource = .loop i) ∧ k.next.Uses i := by
    intro n op a k hop hst i hi
    have hc := h op (List.mem_of_getElem? hop) i hi
    rw [hst] at hc
    exact ⟨hc.1, Control.uses_next hc.2⟩
  cases stepped_of_step hs with
  | start c hidle =>
    intro op hm
    rcases List.mem_append.mp hm with hm | hm
    · exact h op hm
    · cases List.mem_singleton.mp hm
      exact fun i hi => ⟨.inl rfl, hi.1, hi.2, fun _ hF => absurd hF List.not_mem_nil⟩
  | advance hop hst hk =>
    refine confined_setStatus h fun i hi => ?_
    have hn := hnext hop hst i hi
    rw [hk] at hn
    exact hn
  | park hop hst hk =>
    refine confined_setStatus h fun i hi => ?_
    have hn := hnext hop hst i hi
    rw [hk] at hn
    exact hn.2
  | deliver hop hst hk => exact confined_setStatus h fun i hi => (hnext hop hst i hi).1
  | @runTask j caller n rest op j' env κ hidle hq hop hst =>
    have hnj : s.loopOf n = some j := (hinv.queued j n).mp (hq ▸ List.mem_cons_self)
    rw [loopOf_of_status hop, hst] at hnj
    cases hnj
    refine confined_setStatus h fun i hi => ?_
    have hc := h op (List.mem_of_getElem? hop) i hi
    rw [hst] at hc
    obtain ⟨rfl, hκ⟩ := hc
    exact ⟨.inr rfl, hκ⟩
  | requestStop source => exact h

theorem confined_of_reachable (h : Reachable step IsInitial s) : ∀ op ∈ s.ops, op.Confined := by
  have hboth : s.Inv ∧ ∀ op ∈ s.ops, op.Confined := by
    refine h.preserves (P := fun s => s.Inv ∧ ∀ op ∈ s.ops, op.Confined) ?_ ?_
    · rintro s rfl
      exact ⟨inv_of_reachable ⟨_, rfl, [], rfl⟩, fun op hm => absurd hm List.not_mem_nil⟩
    · rintro s l u ⟨hinv, hc⟩ hs
      exact ⟨hinv.step hs, confined_step hinv hc hs⟩
  exact hboth.2

/-- An operation stays the operation of its sender and receiver. -/
theorem kept_step {l : Label α} (hop : s.ops[n]? = some op) (hs : s.step l = some u) :
    ∃ st, u.ops[n]? = some { op with status := st } := by
  have hset : ∀ {m : ℕ} {op' : Op α} (st : Status α), s.ops[m]? = some op' →
      ∃ st', (s.setStatus m op' st).ops[n]? = some { op with status := st' } := by
    intro m op' st hm
    by_cases he : m = n
    · subst he
      cases hop.symm.trans hm
      have hlt := (List.getElem?_eq_some_iff.mp hop).1
      exact ⟨st, by simp [setStatus, hlt]⟩
    · exact ⟨op.status, by simp [setStatus, List.getElem?_set_ne he, hop]⟩
  cases stepped_of_step hs with
  | start c hidle =>
    have hlt := (List.getElem?_eq_some_iff.mp hop).1
    exact ⟨op.status, by rw [List.getElem?_append_left hlt, hop]⟩
  | advance hm hst hk => exact hset _ hm
  | park hm hst hk => exact hset _ hm
  | deliver hm hst hk => exact hset _ hm
  | runTask hidle hq hm hst => exact hset _ hm
  | requestStop source => exact ⟨op.status, hop⟩

theorem waitStep_run {labels : List (Label α)} (h : Reachable step IsInitial s)
    (hop : s.ops[n]? = some op) (hr : run (waitStep t i) s labels = some u) :
    Reachable step IsInitial u ∧ ∃ st, u.ops[n]? = some { op with status := st } := by
  refine run_preserves (P := fun u => Reachable step IsInitial u ∧
    ∃ st, u.ops[n]? = some { op with status := st }) ?_ ⟨h, op.status, hop⟩ hr
  rintro s l u ⟨hs, st, hst⟩ hu
  obtain ⟨-, hu⟩ := step_of_waitStep hu
  obtain ⟨st', hst'⟩ := kept_step hst hu
  exact ⟨hs.next hu, st', hst'⟩

theorem Inv.waitStep_running (h : s.Inv) {a : Agent} {k : Control α} (hop : s.ops[n]? = some op)
    (hst : op.status = .running a k) (ha : a.resource = .thread t ∨ a.resource = .loop i) :
    (s.waitStep t i (.advance n)).isSome := by
  have hby : s.byWaiter t i (.advance n) = true := by
    simpa [byWaiter, hop, hst, Status.agent] using ha
  rw [waitStep, if_pos hby]
  exact h.advances hop hst

/-- A thread that waits for an operation has a step until the operation completed. -/
theorem Inv.waitStep_progress (h : s.Inv) (hop : s.ops[n]? = some op)
    (hc : op.status.Confined i (.thread t)) (hst : op.status.isCompleted = false) :
    ∃ l, (s.waitStep t i l).isSome := by
  cases hs : op.status with
  | running a k =>
    rw [hs] at hc
    exact ⟨_, h.waitStep_running hop hs hc.1⟩
  | completed c b =>
    rw [hs] at hst
    cases hst
  | parked j env κ =>
    rw [hs] at hc
    obtain ⟨rfl, -⟩ := hc
    -- the loop is free, or its caller has a step
    rcases h.runTask_or_busy (by rw [loopOf_of_status hop, hs]; rfl) with hr | ⟨m, op', k, hm, hk⟩
    · refine ⟨.runTask j 0, ?_⟩
      rwa [waitStep, if_pos (by simp [byWaiter])]
    · exact ⟨_, h.waitStep_running hm hk (.inr rfl)⟩

end State

/-- The thread that waits for a sender that schedules on nothing but the loop of the wait
needs no other thread, whatever else is going on: its own steps come to an end, and then the
operation has completed on the thread, with a result of the type of the wait. -/
theorem waiting_thread_suffices {s u : State α} {n t : ℕ} {op : Op α} {labels : List (Label α)}
    {stopToken : Option StopToken} (h : Reachable State.step State.IsInitial s)
    (hop : s.ops[n]? = some op) (ho : op.origin = .thread t)
    (henv : op.connection.env = waitEnv i stopToken) (hu : op.connection.sender.Uses i)
    (hr : run (State.waitStep t i) s labels = some u) :
    labels.length ≤ s.work ∧
      ((∀ l, u.waitStep t i l = none) → ∃ c b,
        u.ops[n]? = some { op with status := .completed c b } ∧
        (b = .thread t ∨ b = .loop i) ∧
        Ends (op.connection.sender.outcomes (waitEnv i stopToken) (.thread t)) (c, b) ∧
        (WaitResult.receive
          (op.connection.sender.completionSignatures (waitEnv i stopToken)) c).HasType
          (op.connection.sender.completionSignatures (waitEnv i stopToken))) := by
  constructor
  · have := run_length_le (P := State.Inv) (Q := fun _ => True) (μ := State.work)
      (fun s l u hs _ hu => by
        obtain ⟨hl, hu⟩ := State.step_of_waitStep hu
        exact ⟨hs.step hu, State.work_step hs hl hu⟩)
      (State.inv_of_reachable h) (fun _ _ => trivial) hr
    omega
  · intro hnone
    obtain ⟨hreach, st, hst⟩ := State.waitStep_run h hop hr
    have hm := List.mem_of_getElem? hst
    have hconf : st.Confined i (.thread t) := by
      rw [← ho]
      refine State.confined_of_reachable hreach _ hm i ⟨hu, ?_⟩
      show op.connection.env.uses i = true
      rw [henv]
      simp [Env.uses, waitEnv, Scheduler.uses]
    -- an operation that has not completed would still have a step
    cases hdone : st.isCompleted with
    | false =>
      obtain ⟨l, hl⟩ := (State.inv_of_reachable hreach).waitStep_progress hst hconf hdone
      rw [hnone l] at hl
      cases hl
    | true =>
      cases st with
      | running a k => cases hdone
      | parked j env κ => cases hdone
      | completed c b =>
        obtain ⟨hout, hsig⟩ := operations_refine_outcomes hreach hm rfl
        simp only [henv, ho] at hout hsig
        exact ⟨c, b, hst, hconf, hout, WaitResult.receive_hasType hsig⟩

/-- A value that goes through the loop of the wait twice. -/
def waitedOn : Connection ℕ where
  sender := .on (.loop 0) (.just [.object 0 5])
  env := waitEnv 0 none
  connectable := ⟨rfl, trivial, by decide⟩

/-- An operation of another thread waits for the same loop in the meantime. -/
theorem waiting_thread_suffices_on : ∃ (s u : State ℕ) (labels : List (Label ℕ)),
    Reachable State.step State.IsInitial s ∧ s.queue 0 = [0] ∧
    run (State.waitStep 1 0) s labels = some u ∧ labels.length = 16 ∧
    u.ops[1]? = some ⟨waitedOn, .thread 1, .completed (.value [.object 0 5]) (.loop 0)⟩ ∧
    (labels.length ≤ s.work ∧
      ((∀ l, u.waitStep 1 0 l = none) → ∃ c b,
        u.ops[1]? = some ⟨waitedOn, .thread 1, .completed c b⟩ ∧
        (b = .thread 1 ∨ b = .loop 0) ∧
        Ends (waitedOn.sender.outcomes (waitEnv 0 none) (.thread 1)) (c, b) ∧
        (WaitResult.receive (waitedOn.sender.completionSignatures (waitEnv 0 none)) c).HasType
          (waitedOn.sender.completionSignatures (waitEnv 0 none)))) := by
  obtain ⟨s, u, hs, hq, hr, hop, hu⟩ : ∃ s u, run State.step ({} : State ℕ)
      [.start (.thread 0) ⟨.runLoop 0, {}, trivial⟩, .advance 0, .start (.thread 1) waitedOn] =
        some s ∧ s.queue 0 = [0] ∧
      run (State.waitStep 1 0) s
        [.advance 1, .advance 1, .advance 1, .advance 1, .advance 1, .runTask 0 0, .advance 0,
          .runTask 0 0, .advance 1, .advance 1, .advance 1, .advance 1, .advance 1, .runTask 0 0,
          .advance 1, .advance 1] = some u ∧
      s.ops[1]? = some ⟨waitedOn, .thread 1, .running (.thread 1)
        (.start waitedOn.sender waitedOn.env [])⟩ ∧
      u.ops[1]? = some ⟨waitedOn, .thread 1, .completed (.value [.object 0 5]) (.loop 0)⟩ :=
    ⟨_, _, rfl, rfl, rfl, rfl, rfl⟩
  have hreach : Reachable State.step State.IsInitial s := ⟨_, rfl, _, hs⟩
  exact ⟨s, u, _, hreach, hq, hr, rfl, hu,
    waiting_thread_suffices hreach hop rfl rfl ⟨trivial, rfl⟩ hr⟩

end CCForge.Senders
