import CCForge.Senders.Types
import Mathlib.Data.List.Nodup

/-!
# Senders

The sender factories and adaptors as a syntax tree, with the environments their
receivers have, the completion schedulers their attributes advertise, and the
completion signatures they compute. A callable of `let_value`, `let_error` or
`let_stopped` either throws or returns the sender to run next.
-/

namespace CCForge.Senders

variable {α : Type}

/-- The queries of a receiver environment. A query without an answer is not available. -/
structure Env where
  scheduler : Option Scheduler := none
  startScheduler : Option Scheduler := none
  delegationScheduler : Option Scheduler := none
  stopToken : Option StopToken := none
  deriving DecidableEq, Repr

namespace Env

/-- `__joined_env` and `__inner_env`: the first environment answers what it can. -/
def join (overlay base : Env) : Env where
  scheduler := overlay.scheduler.or base.scheduler
  startScheduler := overlay.startScheduler.or base.startScheduler
  delegationScheduler := overlay.delegationScheduler.or base.delegationScheduler
  stopToken := overlay.stopToken.or base.stopToken

def getStopToken (env : Env) : StopToken := env.stopToken.getD .never

/-- `__scheduler_env` of the let adaptors and the environment that `starts_on` makes. -/
def ofScheduler (scheduler : Scheduler) : Env where
  scheduler := some scheduler
  startScheduler := some scheduler

def unstoppable : Env where
  stopToken := some .never

/-- The environment of the receiver of an `erased_sender`: only the stop token passes. -/
def erased (env : Env) : Env where
  stopToken := some <|
    match env.getStopToken with
    | .never => .any none
    | .inplace source => .any (some source)
    | .any source => .any source

end Env

inductive Query where
  | getScheduler
  | getStartScheduler
  | getDelegationScheduler
  | getStopToken
  deriving DecidableEq, Repr

def Query.ask (q : Query) (env : Env) : Option (Value α) :=
  match q with
  | .getScheduler => env.scheduler.map .scheduler
  | .getStartScheduler => env.startScheduler.map .scheduler
  | .getDelegationScheduler => env.delegationScheduler.map .scheduler
  | .getStopToken => some (.stopToken env.getStopToken)

/-- The completion functions, which also name the three let adaptors. -/
inductive Tag where
  | value
  | error
  | stopped
  deriving DecidableEq, Repr

/-- What a let adaptor for the tag stores of a completion, if it handles it. -/
def Tag.arguments : Tag → Completion α → Option (List (Value α))
  | .value, .value vs => some vs
  | .error, .error e => some [e]
  | .stopped, .stopped => some []
  | _, _ => none

def Tag.argumentTypes : Tag → Sig → Option (List CppType)
  | .value, .setValue ts => some ts
  | .error, .setError t => some [t]
  | .stopped, .setStopped => some []
  | _, _ => none

theorem Tag.argumentTypes_sig (which : Tag) (c : Completion α) :
    which.argumentTypes c.sig = (which.arguments c).map types := by
  cases which <;> cases c <;> simp [Tag.arguments, Tag.argumentTypes, Completion.sig]

inductive Sender (α : Type) where
  | just (values : List (Value α))
  | justError (error : Value α)
  | justStopped
  | readEnv (query : Query)
  /-- What `run_loop::scheduler::schedule` returns. -/
  | runLoop (loop : LoopId)
  /-- What `inline_scheduler::schedule` returns. -/
  | inline
  | thenSender (source : Sender α) (fn : Fn α)
  | uponError (source : Sender α) (fn : Fn α)
  | uponStopped (source : Sender α) (fn : Fn α)
  /-- `declared` is what the sender type that the callable returns for arguments of the
  given types has as completion signatures. -/
  | letSender (which : Tag) (source : Sender α) (declared : List CppType → Env → List Sig)
      (throws : List (Value α) → Option (Value α)) (inner : List (Value α) → Sender α)
  | bulk (source : Sender α) (shape : ℤ) (fn : LoopFn ℤ α)
  | bulkChunked (source : Sender α) (shape : ℤ) (fn : LoopFn (ℤ × ℤ) α)
  | intoVariant (source : Sender α)
  | stoppedAsOptional (source : Sender α)
  | stoppedAsError (source : Sender α) (error : Value α)
  | writeEnv (source : Sender α) (env : Env)
  | scheduleFrom (source : Sender α)
  | continuesOn (source : Sender α) (scheduler : Scheduler)
  | startsOn (scheduler : Scheduler) (source : Sender α)
  | on (scheduler : Scheduler) (source : Sender α)
  /-- `adapted` is the closure applied to the source continued on the scheduler. -/
  | onClosure (source adapted : Sender α)
  | affine (source : Sender α)
  /-- An `erased_sender` with the declared completion signatures. -/
  | erased (declared : List Sig) (source : Sender α)

/-- `schedule(scheduler)`. -/
def Scheduler.schedule : Scheduler → Sender α
  | .inline => .inline
  | .loop i => .runLoop i
  | .unstoppable s => .writeEnv s.schedule .unstoppable

namespace Sender

/-- `continues_on(source, scheduler)`. -/
def continuesOnFrom (source : Sender α) (scheduler : Scheduler) : Sender α :=
  .continuesOn (.scheduleFrom source) scheduler

/-- `on(source, scheduler, closure)`. -/
def onWith (source : Sender α) (scheduler : Scheduler) (closure : Sender α → Sender α) :
    Sender α :=
  .onClosure source (closure (source.continuesOnFrom scheduler))

/-- `get_completion_scheduler<tag>(get_env(sender))`. -/
def getCompletionScheduler (tag : Tag) : Sender α → Option Scheduler
  | just _ | justError _ | justStopped | readEnv _ => none
  | runLoop i => if tag = .error then none else some (.loop i)
  | inline => if tag = .value then some .inline else none
  | thenSender s _ | uponError s _ | uponStopped s _ | letSender _ s _ _ _ | bulk s _ _
  | bulkChunked s _ _ | intoVariant s | stoppedAsOptional s | stoppedAsError s _
  | writeEnv s _ | scheduleFrom s | startsOn _ s | onClosure s _ => s.getCompletionScheduler tag
  | continuesOn _ scheduler => if tag = .error then none else some scheduler
  | on _ _ | affine _ | erased _ _ => none

/-- `__make_let_env`. -/
def makeLetEnv (which : Tag) (source : Sender α) : Env :=
  match source.getCompletionScheduler which with
  | some scheduler => .ofScheduler scheduler
  | none => {}

end Sender

/-! ## Completion signatures -/

def listPushUnique (list : List Sig) (s : Sig) : List Sig := if s ∈ list then list else list ++ [s]

def appendUnique (list cs : List Sig) : List Sig := cs.foldl listPushUnique list

/-- `__concat_unique_cs_t`. -/
def concatUnique (css : List (List Sig)) : List Sig := css.foldl appendUnique []

theorem mem_listPushUnique {list : List Sig} {s t : Sig} :
    t ∈ listPushUnique list s ↔ t ∈ list ∨ t = s := by
  unfold listPushUnique
  split
  · rename_i h
    exact ⟨.inl, fun h' => h'.elim id fun he => he ▸ h⟩
  · simp

theorem mem_appendUnique {list cs : List Sig} {t : Sig} :
    t ∈ appendUnique list cs ↔ t ∈ list ∨ t ∈ cs := by
  induction cs generalizing list with
  | nil => simp [appendUnique]
  | cons s cs ih =>
    rw [show appendUnique list (s :: cs) = appendUnique (listPushUnique list s) cs from rfl, ih,
      mem_listPushUnique, List.mem_cons, or_assoc]

theorem mem_foldl_appendUnique {css : List (List Sig)} {list : List Sig} {t : Sig} :
    t ∈ css.foldl appendUnique list ↔ t ∈ list ∨ ∃ cs ∈ css, t ∈ cs := by
  induction css generalizing list with
  | nil => simp
  | cons cs css ih => simp only [List.foldl_cons, ih, mem_appendUnique, List.exists_mem_cons_iff,
      or_assoc]

@[simp] theorem mem_concatUnique {css : List (List Sig)} {t : Sig} :
    t ∈ concatUnique css ↔ ∃ cs ∈ css, t ∈ cs := by
  simp [concatUnique, mem_foldl_appendUnique]

theorem nodup_listPushUnique {list : List Sig} (h : list.Nodup) (s : Sig) :
    (listPushUnique list s).Nodup := by
  unfold listPushUnique
  split
  · exact h
  · exact List.nodup_append.mpr ⟨h, List.nodup_singleton s, by
      rintro a ha b hb rfl
      exact absurd ha (by simp_all)⟩

/-- `value_sig_from_result`. -/
def valueSig (result : Option CppType) : Sig := .setValue result.toList

def eptrSig : Sig := .setError .exceptionPtr

/-- The exception completion that an adaptor adds where a call of it may throw. -/
def maybeEptr (mayThrow : Bool) : List Sig := if mayThrow then [eptrSig] else []

namespace Sig

/-- `transform_sig` of `then`. -/
def thenTransform (fn : Fn α) : Sig → Sig
  | .setValue ts => valueSig (fn.result ts)
  | s => s

def thenMayThrow (fn : Fn α) : Sig → Bool
  | .setValue ts => !fn.isNothrowInvocable ts
  | _ => false

/-- `__transform_sig` of `upon_error`. -/
def uponErrorTransform (fn : Fn α) : Sig → Sig
  | .setError t => if fn.isInvocable [t] then valueSig (fn.result [t]) else .setError t
  | s => s

def uponErrorMayThrow (fn : Fn α) : Sig → Bool
  | .setError t => fn.isInvocable [t] && !fn.isNothrowInvocable [t]
  | _ => false

/-- `__transform_sig` of `upon_stopped`. -/
def uponStoppedTransform (fn : Fn α) : Sig → Sig
  | .setStopped => valueSig (fn.result [])
  | s => s

def uponStoppedMayThrow (fn : Fn α) : Sig → Bool
  | .setStopped => !fn.isNothrowInvocable []
  | _ => false

def bulkMayThrow {ι : Type} (fn : LoopFn ι α) : Sig → Bool
  | .setValue ts => !fn.isNothrowInvocable ts
  | _ => false

def valueTypes : Sig → Option (List CppType)
  | .setValue ts => some ts
  | _ => none

def errorType : Sig → Option CppType
  | .setError t => some t
  | _ => none

/-- `__non_value_completion`. -/
def isNonValue : Sig → Bool
  | .setValue _ => false
  | _ => true

end Sig

def typePushUnique (list : List CppType) (t : CppType) : List CppType :=
  if t ∈ list then list else list ++ [t]

/-- The distinct tuple types of the value completions. -/
def valueTuples (cs : List Sig) : List CppType :=
  (cs.filterMap Sig.valueTypes).foldl (fun list ts => typePushUnique list (.tuple ts)) []

/-- What the optional of these values holds: the only value, or a tuple of them. -/
def optionalElement : List CppType → CppType
  | [t] => t
  | ts => .tuple ts

/-- `__optional_value_t`. -/
def optionalValueType (ts : List CppType) : CppType := .optional (optionalElement ts)

/-- What the type of `__first_optional_type` holds. -/
def firstOptionalElement (cs : List Sig) : CppType :=
  match cs.filterMap Sig.valueTypes with
  | [] => .tuple []
  | ts :: _ => optionalElement ts

/-- `__valid_optional_cs`: one value completion, and not an empty one. -/
def validOptional (cs : List Sig) : Bool :=
  (cs.filterMap Sig.valueTypes).length == 1 && (cs.filterMap Sig.valueTypes).any (!·.isEmpty)

/-- `__let_sig`. -/
def letSig (which : Tag) (declared : List CppType → List Sig) (c : Sig) : List Sig :=
  match which.argumentTypes c with
  | some ts => declared ts
  | none => [c]

/-- `__optional_sig`. -/
def optionalSig : Sig → List Sig
  | .setValue ts => [.setValue [optionalValueType ts]]
  | .setStopped => []
  | s => [s]

variable (α) in
def optionalMayThrow [Decay α] : Sig → Bool
  | .setValue ts => !isNothrowConstructibleAll α ts
  | _ => false

/-- The value completions that `into_variant` folds into one. -/
def variantSigs (cs : List Sig) : List Sig :=
  if valueTuples cs = [] then [] else [.setValue [.variant (valueTuples cs)]]

def nonValueSigs (cs : List Sig) : List Sig := concatUnique [cs.filter Sig.isNonValue]

/-- The completion signatures of `schedule(scheduler)`. -/
def Scheduler.completionSignatures : Scheduler → Env → List Sig
  | .inline, _ => [.setValue []]
  | .loop _, env =>
    if env.getStopToken = .never then [.setValue []] else [.setValue [], .setStopped]
  | .unstoppable s, env => s.completionSignatures (Env.unstoppable.join env)

def continuesOnSigs (source sched : List Sig) : List Sig :=
  concatUnique [concatUnique (source.map ([·])), nonValueSigs sched, [eptrSig]]

def startsOnSigs (source sched : List Sig) : List Sig :=
  concatUnique [source, nonValueSigs sched]

namespace Sender

variable [Decay α]

/-- `get_completion_signatures(sender, env)`. -/
def completionSignatures : Sender α → Env → List Sig
  | just vs, _ => [.setValue (types vs)]
  | justError e, _ => [.setError e.type]
  | justStopped, _ => [.setStopped]
  | readEnv q, env => [.setValue (((q.ask env : Option (Value α)).map Value.type).toList)]
  | runLoop i, env => (Scheduler.loop i).completionSignatures env
  | inline, env => Scheduler.inline.completionSignatures env
  | thenSender s fn, env =>
    appendUnique (appendUnique [] ((s.completionSignatures env).map (Sig.thenTransform fn)))
      (maybeEptr ((s.completionSignatures env).any (Sig.thenMayThrow fn)))
  | uponError s fn, env =>
    concatUnique [(s.completionSignatures env).map (Sig.uponErrorTransform fn),
      maybeEptr ((s.completionSignatures env).any (Sig.uponErrorMayThrow fn))]
  | uponStopped s fn, env =>
    concatUnique [(s.completionSignatures env).map (Sig.uponStoppedTransform fn),
      maybeEptr ((s.completionSignatures env).any (Sig.uponStoppedMayThrow fn))]
  | letSender which s declared _ _, env =>
    concatUnique ((s.completionSignatures env).map (letSig which fun ts =>
        declared ts ((makeLetEnv which s).join env)) ++
      [maybeEptr ((s.completionSignatures env).any fun c => (which.argumentTypes c).isSome)])
  | bulk s _ fn, env =>
    let up := s.completionSignatures env
    if up.any (Sig.bulkMayThrow fn) then concatUnique [up, [eptrSig]] else up
  | bulkChunked s _ fn, env =>
    let up := s.completionSignatures env
    if up.any (Sig.bulkMayThrow fn) then concatUnique [up, [eptrSig]] else up
  | intoVariant s, env =>
    let up := s.completionSignatures env
    concatUnique [variantSigs up, nonValueSigs up, maybeEptr (up.any (optionalMayThrow α))]
  | stoppedAsOptional s, env =>
    let up := s.completionSignatures env
    concatUnique (up.map optionalSig ++
      [if .setStopped ∈ up then [.setValue [.optional (firstOptionalElement up)]] else [],
        maybeEptr (up.any (optionalMayThrow α))])
  | stoppedAsError s e, env =>
    let up := s.completionSignatures env
    concatUnique (up.map (fun c => if c = .setStopped then [] else [c]) ++
      [if .setStopped ∈ up then [.setError e.type] else []])
  | writeEnv s overlay, env => s.completionSignatures (overlay.join env)
  | scheduleFrom s, env => s.completionSignatures env
  | continuesOn s sch, env =>
    continuesOnSigs (s.completionSignatures env) (sch.completionSignatures env)
  | startsOn sch s, env =>
    startsOnSigs (s.completionSignatures ((Env.ofScheduler sch).join env))
      (sch.completionSignatures env)
  | on sch s, env =>
    match env.startScheduler with
    | some orig =>
      continuesOnSigs (startsOnSigs (s.completionSignatures ((Env.ofScheduler sch).join env))
        (sch.completionSignatures env)) (orig.completionSignatures env)
    | none => []
  | onClosure s adapted, env =>
    match s.getCompletionScheduler .value with
    | some orig =>
      continuesOnSigs (adapted.completionSignatures env) (orig.completionSignatures env)
    | none => []
  | affine s, env =>
    match env.startScheduler with
    | some orig =>
      continuesOnSigs (s.completionSignatures env)
        ((Scheduler.unstoppable orig).completionSignatures env)
    | none => []
  | erased declared _, _ => declared

theorem completionSignatures_schedule (sch : Scheduler) (env : Env) :
    (sch.schedule : Sender α).completionSignatures env = sch.completionSignatures env := by
  induction sch generalizing env with
  | inline => rfl
  | loop i => rfl
  | unstoppable s ih => exact ih _

/-- The sender can be connected to a receiver with this environment: the requirements that
the adaptors check when their completion signatures are computed, and for a let adaptor
that what its callable returns has the completion signatures of its declared type. -/
def Connectable : Sender α → Env → Prop
  | just _, _ | justError _, _ | justStopped, _ | runLoop _, _ | inline, _ => True
  | readEnv q, env => (q.ask env : Option (Value α)).isSome
  | thenSender s fn, env => s.Connectable env ∧
    ∀ ts, .setValue ts ∈ s.completionSignatures env → fn.isInvocable ts = true
  | uponError s fn, env => s.Connectable env ∧
    ∀ t, .setError t ∈ s.completionSignatures env → fn.isInvocable [t] = true
  | uponStopped s fn, env => s.Connectable env ∧
    (.setStopped ∈ s.completionSignatures env → fn.isInvocable [] = true)
  | letSender which s declared throws inner, env => s.Connectable env ∧
    ∀ vs, (∃ c ∈ s.completionSignatures env, which.argumentTypes c = some (types vs)) →
      throws vs = none → (inner vs).Connectable ((makeLetEnv which s).join env) ∧
      (inner vs).completionSignatures ((makeLetEnv which s).join env) =
        declared (types vs) ((makeLetEnv which s).join env)
  | bulk s _ _, env | bulkChunked s _ _, env | intoVariant s, env | stoppedAsError s _, env
  | scheduleFrom s, env => s.Connectable env
  | stoppedAsOptional s, env =>
    s.Connectable env ∧ validOptional (s.completionSignatures env) = true
  | writeEnv s overlay, env => s.Connectable (overlay.join env)
  | continuesOn s _, env => s.Connectable env ∧
    ((s.completionSignatures env).filterMap Sig.valueTypes).length ≤ 1
  | startsOn sch s, env => s.Connectable ((Env.ofScheduler sch).join env)
  | on sch s, env => env.startScheduler.isSome ∧
    s.Connectable ((Env.ofScheduler sch).join env) ∧
    ((startsOnSigs (s.completionSignatures ((Env.ofScheduler sch).join env))
      (sch.completionSignatures env)).filterMap Sig.valueTypes).length ≤ 1
  | onClosure s adapted, env => (s.getCompletionScheduler .value).isSome ∧
    adapted.Connectable env ∧
    ((adapted.completionSignatures env).filterMap Sig.valueTypes).length ≤ 1
  | affine s, env => env.startScheduler.isSome ∧ s.Connectable env ∧
    ((s.completionSignatures env).filterMap Sig.valueTypes).length ≤ 1
  | erased declared s, env =>
    s.Connectable env.erased ∧ ∀ c ∈ s.completionSignatures env.erased, c ∈ declared

end Sender

end CCForge.Senders
