import CCForge.Lib.Outcomes
import CCForge.Senders.Syntax

/-!
# What a sender completes with

The completions of an operation with the execution resource each arrives on. A loop
completes a scheduled operation with a value, or as stopped where the receiver has a
stop token that can be requested; everything else is decided by the program. The
completion signatures of a connectable sender cover every one of its completions.
-/

namespace CCForge.Senders

open Outcomes (tick)

variable {α : Type}

/-- An execution resource: a thread outside of the loops, or the callers of one loop's `run`. -/
inductive Resource where
  | thread (id : ℕ)
  | loop (loop : LoopId)
  deriving DecidableEq, Repr

abbrev Result (α : Type) := Completion α × Resource

/-- The result of a call, delivered with `set_value`, or what it threw. -/
def Completion.ofCall : Except (Value α) (Option (Value α)) → Completion α
  | .ok r => .value r.toList
  | .error e => .thrown e

/-- The loop of `bulk`: `n` calls from the index `i` on, each with the values as the call
before left them. -/
def runIndices (fn : LoopFn ℤ α) : ℕ → ℤ → List (Value α) → Except (Value α) (List (Value α))
  | 0, _, vs => .ok vs
  | n + 1, i, vs => (fn.invoke i vs).bind (runIndices fn n (i + 1))

def makeOptionalValue : List (Value α) → Value α
  | [v] => .engaged v
  | vs => .engaged (.tuple vs)

/-- The receivers that complete the outer receiver from inside of their own completion. -/
inductive Receiver (α : Type) where
  | thenReceiver (fn : Fn α)
  | recvError (fn : Fn α)
  | recvStopped (fn : Fn α)
  | bulk (shape : ℤ) (fn : LoopFn ℤ α)
  | bulkChunked (shape : ℤ) (fn : LoopFn (ℤ × ℤ) α)
  | intoVariant (alternatives : List CppType)
  | optional (value : CppType)
  | error (error : Value α)
  /-- The receivers of `write_env`, of the second operation of `starts_on` and of the
  inner operation of a let adaptor. -/
  | forward
  /-- The receivers of the schedule operation of `continues_on`, with the stored completion. -/
  | scheduled (payload : Completion α)

namespace Receiver

variable [Decay α]

/-- The completion that the outer receiver gets. -/
def complete : Receiver α → Completion α → Completion α
  | thenReceiver fn, .value vs => .ofCall (fn.invoke vs)
  | recvError fn, .error e =>
    if fn.isInvocable [e.type] then .ofCall (fn.invoke [e]) else .error e
  | recvStopped fn, .stopped => .ofCall (fn.invoke [])
  | bulk shape fn, .value vs =>
    match runIndices fn shape.toNat 0 vs with
    | .ok ws => .value ws
    | .error e => .thrown e
  | bulkChunked shape fn, .value vs =>
    if 0 < shape then
      match fn.invoke (0, shape) vs with
      | .ok ws => .value ws
      | .error e => .thrown e
    else .value vs
  | intoVariant alternatives, .value vs =>
    match constructAll vs with
    | none => .value [.variant alternatives (.tuple vs)]
    | some e => .thrown e
  | optional _, .value vs =>
    match constructAll vs with
    | none => .value [makeOptionalValue vs]
    | some e => .thrown e
  | optional t, .stopped => .value [.nullopt t]
  | error e, .stopped => .error e
  | scheduled payload, .value _ => payload
  | _, c => c

end Receiver

/-- What `__up_recv` of `continues_on` stores: the completion, or what storing it threw. -/
def storeCompletion [Decay α] : Completion α → Completion α
  | .value vs => (constructAll vs).elim (.value vs) .thrown
  | .error e => (Decay.construct e).elim (.error e) .thrown
  | .stopped => .stopped

/-! ## The receiver of an erased sender -/

section

variable {γ : Type} [DecidableEq γ]

/-- `list_push_unique_t`. -/
def shapePushUnique (list : List γ) (x : γ) : List γ := if x ∈ list then list else list ++ [x]

/-- `__tuple_index` and `__error_index`. Without the shape in the list they do not compile. -/
def shapeIndex (x : γ) : List γ → Option ℕ
  | [] => none
  | y :: list => if y = x then some 0 else (shapeIndex x list).map (· + 1)

/-- `complete_value_impl` and `complete_error_impl`: the shape whose pointer type the payload
is cast to, or `none` where they call `terminate`. -/
def shapeAt : ℕ → List γ → Option γ
  | _, [] => none
  | 0, y :: _ => some y
  | n + 1, _ :: list => shapeAt n list

end

def valueList (cs : List Sig) : List (List CppType) :=
  (cs.filterMap Sig.valueTypes).foldl shapePushUnique []

def errorList (cs : List Sig) : List CppType :=
  (cs.filterMap Sig.errorType).foldl shapePushUnique []

/-- What the outer receiver gets through the virtual functions of the receiver state. A cast
to a type that is not the one of the payload has no defined behaviour. -/
def eraseCompletion (cs : List Sig) : Completion α → Option (Completion α)
  | .value vs => do
    let index ← shapeIndex (types vs) (valueList cs)
    let shape ← shapeAt index (valueList cs)
    if shape = types vs then some (.value vs) else none
  | .error e => do
    let index ← shapeIndex e.type (errorList cs)
    let shape ← shapeAt index (errorList cs)
    if shape = e.type then some (.error e) else none
  | .stopped => if .setStopped ∈ cs then some .stopped else none

/-- A task of a loop runs: a requested stop turns it into a stopped completion. -/
def resume (i : LoopId) (env : Env) : Outcomes (Result α) :=
  tick (Outcomes.pure (.value [], .loop i)) ++
    if env.getStopToken = .never then [] else tick (Outcomes.pure (.stopped, .loop i))

def eraseOutcomes (declared : List Sig) (m : Outcomes (Result α)) : Outcomes (Result α) :=
  Outcomes.bind m fun cb => tick <|
    (eraseCompletion declared cb.1).elim Outcomes.stuck fun c => Outcomes.pure (c, cb.2)

variable [Decay α]

/-- The completion goes through a receiver. -/
def through (r : Receiver α) (m : Outcomes (Result α)) : Outcomes (Result α) :=
  Outcomes.bind m fun cb => tick (Outcomes.pure (r.complete cb.1, cb.2))

/-- `schedule(scheduler)` connected and started. -/
def Scheduler.outcomes : Scheduler → Env → Resource → Outcomes (Result α)
  | .inline, _, b => tick (Outcomes.pure (.value [], b))
  | .loop i, env, _ => tick (resume i env)
  | .unstoppable s, env, b => tick (through .forward (s.outcomes (Env.unstoppable.join env) b))

def continuesOnOutcomes (sch : Scheduler) (env : Env) (m : Outcomes (Result α)) :
    Outcomes (Result α) :=
  Outcomes.bind m fun cb =>
    tick (through (.scheduled (storeCompletion cb.1)) (sch.outcomes env cb.2))

def startsOnOutcomes (sch : Scheduler) (env : Env) (b : Resource)
    (m : Resource → Outcomes (Result α)) : Outcomes (Result α) :=
  Outcomes.bind (sch.outcomes env b) fun cb => tick <|
    match cb.1 with
    | .value _ => through .forward (m cb.2)
    | c => Outcomes.pure (c, cb.2)

/-- A let adaptor handles a completion: it stores the values, calls the callable and
starts the sender that it returns. -/
def letOutcomes (which : Tag) (throws : List (Value α) → Option (Value α))
    (inner : List (Value α) → Resource → Outcomes (Result α)) (c : Completion α) (b : Resource) :
    Outcomes (Result α) :=
  match which.arguments c with
  | none => Outcomes.pure (c, b)
  | some vs =>
    match (constructAll vs).or (throws vs) with
    | some e => Outcomes.pure (.thrown e, b)
    | none => through .forward (inner vs b)

section

variable {which : Tag} {throws : List (Value α) → Option (Value α)}
  {inner : List (Value α) → Resource → Outcomes (Result α)} {c : Completion α} {b : Resource}

theorem letOutcomes_forward (h : which.arguments c = none) :
    letOutcomes which throws inner c b = Outcomes.pure (c, b) := by
  simp only [letOutcomes, h]

theorem letOutcomes_throw {vs : List (Value α)} {e : Value α} (h : which.arguments c = some vs)
    (ht : (constructAll vs).or (throws vs) = some e) :
    letOutcomes which throws inner c b = Outcomes.pure (.thrown e, b) := by
  simp only [letOutcomes, h, ht]

theorem letOutcomes_inner {vs : List (Value α)} (h : which.arguments c = some vs)
    (ht : (constructAll vs).or (throws vs) = none) :
    letOutcomes which throws inner c b = through .forward (inner vs b) := by
  simp only [letOutcomes, h, ht]

end

namespace Sender

/-- The completions of `connect(sender, receiver)` started on the resource, where the
receiver has the environment. -/
def outcomes : Sender α → Env → Resource → Outcomes (Result α)
  | just vs, _, b => tick (Outcomes.pure (.value vs, b))
  | justError e, _, b => tick (Outcomes.pure (.error e, b))
  | justStopped, _, b => tick (Outcomes.pure (.stopped, b))
  | readEnv q, env, b =>
    (q.ask env).elim (tick Outcomes.stuck) fun v => tick (Outcomes.pure (.value [v], b))
  | runLoop i, env, b => (Scheduler.loop i).outcomes env b
  | inline, env, b => Scheduler.inline.outcomes env b
  | thenSender s fn, env, b => tick (through (.thenReceiver fn) (s.outcomes env b))
  | uponError s fn, env, b => tick (through (.recvError fn) (s.outcomes env b))
  | uponStopped s fn, env, b => tick (through (.recvStopped fn) (s.outcomes env b))
  | letSender which s _ throws inner, env, b =>
    tick (Outcomes.bind (s.outcomes env b) fun cb =>
      tick (letOutcomes which throws
        (fun vs b' => (inner vs).outcomes ((makeLetEnv which s).join env) b') cb.1 cb.2))
  | bulk s shape fn, env, b => tick (through (.bulk shape fn) (s.outcomes env b))
  | bulkChunked s shape fn, env, b => tick (through (.bulkChunked shape fn) (s.outcomes env b))
  | intoVariant s, env, b =>
    tick (through (.intoVariant (valueTuples (s.completionSignatures env))) (s.outcomes env b))
  | stoppedAsOptional s, env, b =>
    tick (through (.optional (firstOptionalElement (s.completionSignatures env)))
      (s.outcomes env b))
  | stoppedAsError s e, env, b => tick (through (.error e) (s.outcomes env b))
  | writeEnv s overlay, env, b => tick (through .forward (s.outcomes (overlay.join env) b))
  | scheduleFrom s, env, b => tick (s.outcomes env b)
  | continuesOn s sch, env, b => tick (continuesOnOutcomes sch env (s.outcomes env b))
  | startsOn sch s, env, b =>
    tick (startsOnOutcomes sch env b fun b' => s.outcomes ((Env.ofScheduler sch).join env) b')
  | on sch s, env, b =>
    env.startScheduler.elim (tick Outcomes.stuck) fun orig =>
      tick (tick (continuesOnOutcomes orig env (tick (tick (startsOnOutcomes sch env b fun b' =>
        s.outcomes ((Env.ofScheduler sch).join env) b')))))
  | onClosure s adapted, env, b =>
    (s.getCompletionScheduler .value).elim (tick Outcomes.stuck) fun orig =>
      tick (tick (continuesOnOutcomes orig env (tick (adapted.outcomes env b))))
  | affine s, env, b =>
    env.startScheduler.elim (tick Outcomes.stuck) fun orig =>
      tick (tick (continuesOnOutcomes (.unstoppable orig) env (tick (s.outcomes env b))))
  | erased declared s, env, b => tick (eraseOutcomes declared (s.outcomes env.erased b))

theorem outcomes_schedule (sch : Scheduler) (env : Env) (b : Resource) :
    (sch.schedule : Sender α).outcomes env b = sch.outcomes env b := by
  induction sch generalizing env with
  | inline => rfl
  | loop i => rfl
  | unstoppable s ih => simp only [Scheduler.schedule, outcomes, Scheduler.outcomes, ih]

end Sender

/-! ## Every execution ends in some way -/

omit [Decay α] in
theorem resume_ne_nil (i : LoopId) (env : Env) : (resume i env : Outcomes (Result α)) ≠ [] := by
  simp [resume, Outcomes.pure, tick]

theorem through_ne_nil (r : Receiver α) {m : Outcomes (Result α)} (h : m ≠ []) :
    through r m ≠ [] :=
  Outcomes.bind_ne_nil h fun _ => by simp [Outcomes.pure, tick]

theorem Scheduler.outcomes_ne_nil (sch : Scheduler) (env : Env) (b : Resource) :
    (sch.outcomes env b : Outcomes (Result α)) ≠ [] := by
  induction sch generalizing env with
  | inline => simp [Scheduler.outcomes, Outcomes.pure, tick]
  | loop i => exact Outcomes.tick_ne_nil (resume_ne_nil i env)
  | unstoppable s ih => exact Outcomes.tick_ne_nil (through_ne_nil _ (ih _))

theorem continuesOn_ne_nil (sch : Scheduler) (env : Env) {m : Outcomes (Result α)} (h : m ≠ []) :
    continuesOnOutcomes sch env m ≠ [] :=
  Outcomes.bind_ne_nil h fun cb =>
    Outcomes.tick_ne_nil (through_ne_nil _ (sch.outcomes_ne_nil env cb.2))

omit [Decay α] in
theorem erase_ne_nil (declared : List Sig) {m : Outcomes (Result α)} (h : m ≠ []) :
    eraseOutcomes declared m ≠ [] :=
  Outcomes.bind_ne_nil h fun cb => by
    cases eraseCompletion declared cb.1 <;> simp [Outcomes.pure, Outcomes.stuck, tick]

theorem startsOn_ne_nil (sch : Scheduler) (env : Env) (b : Resource)
    {m : Resource → Outcomes (Result α)} (h : ∀ b', m b' ≠ []) :
    startsOnOutcomes sch env b m ≠ [] := by
  refine Outcomes.bind_ne_nil (sch.outcomes_ne_nil env b) fun ⟨c, b'⟩ => Outcomes.tick_ne_nil ?_
  cases c with
  | value vs => exact through_ne_nil _ (h b')
  | error e => simp [Outcomes.pure]
  | stopped => simp [Outcomes.pure]

theorem letOutcomes_ne_nil (which : Tag) (throws : List (Value α) → Option (Value α))
    {inner : List (Value α) → Resource → Outcomes (Result α)} (h : ∀ vs b, inner vs b ≠ [])
    (c : Completion α) (b : Resource) : letOutcomes which throws inner c b ≠ [] := by
  cases ha : which.arguments c with
  | none => simp [letOutcomes_forward ha, Outcomes.pure]
  | some vs =>
    cases ht : (constructAll vs).or (throws vs) with
    | some e => simp [letOutcomes_throw ha ht, Outcomes.pure]
    | none =>
      rw [letOutcomes_inner ha ht]
      exact through_ne_nil _ (h vs b)

theorem Sender.outcomes_ne_nil (s : Sender α) (env : Env) (b : Resource) :
    s.outcomes env b ≠ [] := by
  -- a let adaptor needs the hypothesis for every sender that its callable returns
  induction s generalizing env b with
  | just vs => simp [outcomes, Outcomes.pure, tick]
  | justError e => simp [outcomes, Outcomes.pure, tick]
  | justStopped => simp [outcomes, Outcomes.pure, tick]
  | readEnv q =>
    cases h : (q.ask env : Option (Value α)) <;>
      simp [outcomes, h, Outcomes.pure, Outcomes.stuck, tick]
  | runLoop i => exact Scheduler.outcomes_ne_nil _ _ _
  | inline => exact Scheduler.outcomes_ne_nil _ _ _
  | thenSender s fn ih | uponError s fn ih | uponStopped s fn ih | bulk s shape fn ih
  | bulkChunked s shape fn ih | intoVariant s ih | stoppedAsOptional s ih
  | stoppedAsError s e ih | writeEnv s overlay ih =>
    exact Outcomes.tick_ne_nil (through_ne_nil _ (ih _ b))
  | letSender which s declared throws inner ih ihInner =>
    exact Outcomes.tick_ne_nil (Outcomes.bind_ne_nil (ih env b) fun cb =>
      Outcomes.tick_ne_nil (letOutcomes_ne_nil _ _ (fun vs b' => ihInner vs _ b') _ _))
  | scheduleFrom s ih => exact Outcomes.tick_ne_nil (ih env b)
  | continuesOn s sch ih => exact Outcomes.tick_ne_nil (continuesOn_ne_nil sch env (ih env b))
  | startsOn sch s ih => exact Outcomes.tick_ne_nil (startsOn_ne_nil sch env b fun b' => ih _ b')
  | on sch s ih =>
    cases h : env.startScheduler with
    | none => simp [outcomes, h, Outcomes.stuck, tick]
    | some orig =>
      simp only [outcomes, h, Option.elim]
      exact Outcomes.tick_ne_nil (Outcomes.tick_ne_nil (continuesOn_ne_nil _ _
        (Outcomes.tick_ne_nil (Outcomes.tick_ne_nil (startsOn_ne_nil _ _ _ fun b' => ih _ b')))))
  | onClosure s adapted _ ih =>
    cases h : s.getCompletionScheduler .value with
    | none => simp [outcomes, h, Outcomes.stuck, tick]
    | some orig =>
      simp only [outcomes, h, Option.elim]
      exact Outcomes.tick_ne_nil (Outcomes.tick_ne_nil (continuesOn_ne_nil _ _
        (Outcomes.tick_ne_nil (ih env b))))
  | affine s ih =>
    cases h : env.startScheduler with
    | none => simp [outcomes, h, Outcomes.stuck, tick]
    | some orig =>
      simp only [outcomes, h, Option.elim]
      exact Outcomes.tick_ne_nil (Outcomes.tick_ne_nil (continuesOn_ne_nil _ _
        (Outcomes.tick_ne_nil (ih env b))))
  | erased declared s ih => exact Outcomes.tick_ne_nil (erase_ne_nil declared (ih _ b))

end CCForge.Senders
