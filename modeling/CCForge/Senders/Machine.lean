import CCForge.Lib.Run
import CCForge.Senders.Signatures

/-!
# Operations step by step

Connected operations on threads and loops. An operation is a stack of receivers, the
innermost first: a start goes down into the source operation, a completion comes back
up through the receivers, and a schedule operation of a loop waits in the queue of the
loop until a caller of its `run` takes it. Any number of operations run at the same
time, on any number of threads and loops, and stops are requested at any point.
-/

namespace CCForge.Senders

open Outcomes (tick)

variable {α : Type}

/-- The receivers of the operations that a completion goes through. -/
inductive Frame (α : Type) where
  | receiver (receiver : Receiver α)
  /-- `__outer_recv` of a let adaptor, with the environment of its inner receiver. -/
  | letOuter (which : Tag) (throws : List (Value α) → Option (Value α))
      (inner : List (Value α) → Sender α) (env : Env)
  /-- `__up_recv` of `continues_on`. -/
  | up (scheduler : Scheduler) (env : Env)
  /-- `__sched_recv` of `starts_on`, with the environment of its source. -/
  | sched (source : Sender α) (env : Env)
  | erased (declared : List Sig)

/-- What an execution agent does next for an operation. -/
inductive Control (α : Type) where
  | start (sender : Sender α) (env : Env) (frames : List (Frame α))
  | complete (completion : Completion α) (frames : List (Frame α))

inductive Next (α : Type) where
  | run (control : Control α)
  /-- The task is pushed to the loop. -/
  | park (loop : LoopId) (env : Env) (frames : List (Frame α))
  /-- The receiver that the program connected gets the completion. -/
  | deliver (completion : Completion α)
  | stuck

section

variable [Decay α]

namespace Sender

/-- `start` of the operation of a sender. -/
def start (env : Env) (κ : List (Frame α)) : Sender α → Next α
  | just vs => .run (.complete (.value vs) κ)
  | justError e => .run (.complete (.error e) κ)
  | justStopped => .run (.complete .stopped κ)
  | readEnv q => (q.ask env).elim .stuck fun v => .run (.complete (.value [v]) κ)
  | runLoop i => .park i env κ
  | inline => .run (.complete (.value []) κ)
  | thenSender s fn => .run (.start s env (.receiver (.thenReceiver fn) :: κ))
  | uponError s fn => .run (.start s env (.receiver (.recvError fn) :: κ))
  | uponStopped s fn => .run (.start s env (.receiver (.recvStopped fn) :: κ))
  | letSender which s _ throws inner =>
    .run (.start s env (.letOuter which throws inner ((makeLetEnv which s).join env) :: κ))
  | bulk s shape fn => .run (.start s env (.receiver (.bulk shape fn) :: κ))
  | bulkChunked s shape fn => .run (.start s env (.receiver (.bulkChunked shape fn) :: κ))
  | intoVariant s =>
    .run (.start s env (.receiver (.intoVariant (valueTuples (s.completionSignatures env))) :: κ))
  | stoppedAsOptional s =>
    .run (.start s env
      (.receiver (.optional (firstOptionalElement (s.completionSignatures env))) :: κ))
  | stoppedAsError s e => .run (.start s env (.receiver (.error e) :: κ))
  | writeEnv s overlay => .run (.start s (overlay.join env) (.receiver .forward :: κ))
  | scheduleFrom s => .run (.start s env κ)
  | continuesOn s sch => .run (.start s env (.up sch env :: κ))
  | startsOn sch s =>
    .run (.start sch.schedule env (.sched s ((Env.ofScheduler sch).join env) :: κ))
  | on sch s => env.startScheduler.elim .stuck fun orig =>
    .run (.start ((startsOn sch s).continuesOnFrom orig) env κ)
  | onClosure s adapted => (s.getCompletionScheduler .value).elim .stuck fun orig =>
    .run (.start (adapted.continuesOnFrom orig) env κ)
  | affine s => env.startScheduler.elim .stuck fun orig =>
    .run (.start (s.continuesOnFrom (.unstoppable orig)) env κ)
  | erased declared s => .run (.start s env.erased (.erased declared :: κ))

end Sender

namespace Frame

/-- A completion reaches a receiver. -/
def receive (κ : List (Frame α)) : Frame α → Completion α → Next α
  | receiver r, c => .run (.complete (r.complete c) κ)
  | letOuter which throws inner env, c =>
    match which.arguments c with
    | none => .run (.complete c κ)
    | some vs =>
      match (constructAll vs).or (throws vs) with
      | some e => .run (.complete (.thrown e) κ)
      | none => .run (.start (inner vs) env (.receiver .forward :: κ))
  | up sch env, c =>
    .run (.start sch.schedule env (.receiver (.scheduled (storeCompletion c)) :: κ))
  | sched s env, .value _ => .run (.start s env (.receiver .forward :: κ))
  | sched _ _, c => .run (.complete c κ)
  | erased declared, c =>
    (eraseCompletion declared c).elim .stuck fun c' => .run (.complete c' κ)

def outcomes : Frame α → Result α → Outcomes (Result α)
  | receiver r, cb => Outcomes.pure (r.complete cb.1, cb.2)
  | letOuter which throws inner env, cb =>
    letOutcomes which throws (fun vs b => (inner vs).outcomes env b) cb.1 cb.2
  | up sch env, cb => through (.scheduled (storeCompletion cb.1)) (sch.outcomes env cb.2)
  | sched s env, cb =>
    match cb.1 with
    | .value _ => through .forward (s.outcomes env cb.2)
    | c => Outcomes.pure (c, cb.2)
  | erased declared, cb =>
    (eraseCompletion declared cb.1).elim Outcomes.stuck fun c => Outcomes.pure (c, cb.2)

end Frame

/-- What becomes of a completion that goes through the receivers. -/
def plug : List (Frame α) → Result α → Outcomes (Result α)
  | [], cb => tick (Outcomes.pure cb)
  | F :: κ, cb => tick ((F.outcomes cb).bind (plug κ))

namespace Control

def next : Control α → Next α
  | start s env κ => s.start env κ
  | complete c [] => .deliver c
  | complete c (F :: κ) => F.receive κ c

def outcomes : Control α → Resource → Outcomes (Result α)
  | start s env κ, b => (s.outcomes env b).bind (plug κ)
  | complete c κ, b => plug κ (c, b)

end Control

def Next.outcomes : Next α → Resource → Outcomes (Result α)
  | run k, b => tick (k.outcomes b)
  | park i env κ, _ => tick ((resume i env).bind (plug κ))
  | deliver c, b => tick (Outcomes.pure (c, b))
  | stuck, _ => tick Outcomes.stuck

theorem through_bind (r : Receiver α) (m : Outcomes (Result α)) (κ : List (Frame α)) :
    (through r m).bind (plug κ) = m.bind (plug (.receiver r :: κ)) := by
  rw [through, Outcomes.bind_assoc]
  congr 1
  funext cb
  simp [plug, Frame.outcomes]

theorem Frame.outcomes_receive (F : Frame α) (c : Completion α) (b : Resource)
    (κ : List (Frame α)) : (F.receive κ c).outcomes b = plug (F :: κ) (c, b) := by
  cases F with
  | receiver r => simp [Frame.receive, Next.outcomes, Control.outcomes, Frame.outcomes, plug]
  | letOuter which throws inner env =>
    cases ha : which.arguments c with
    | none =>
      simp [Frame.receive, Next.outcomes, Control.outcomes, Frame.outcomes, plug,
        letOutcomes_forward, ha]
    | some vs =>
      cases ht : (constructAll vs).or (throws vs) with
      | some e =>
        simp only [Frame.receive, Frame.outcomes, letOutcomes_throw ha ht, ha, ht,
          Next.outcomes, Control.outcomes, Outcomes.pure_bind, plug]
      | none =>
        simp only [Frame.receive, Frame.outcomes, letOutcomes_inner ha ht, ha, ht,
          Next.outcomes, Control.outcomes, through_bind, plug]
  | up sch env =>
    simp only [Frame.receive, Next.outcomes, Control.outcomes, Frame.outcomes,
      Sender.outcomes_schedule, through_bind, plug]
  | sched s env =>
    cases c with
    | value vs =>
      simp only [Frame.receive, Next.outcomes, Control.outcomes, Frame.outcomes, through_bind, plug]
    | error e => simp [Frame.receive, Next.outcomes, Control.outcomes, Frame.outcomes, plug]
    | stopped => simp [Frame.receive, Next.outcomes, Control.outcomes, Frame.outcomes, plug]
  | erased declared =>
    cases h : eraseCompletion declared c <;>
      simp [Frame.receive, h, Next.outcomes, Control.outcomes, Frame.outcomes, plug]

theorem continuesOn_bind (sch : Scheduler) (env : Env) (m : Outcomes (Result α))
    (κ : List (Frame α)) :
    (continuesOnOutcomes sch env m).bind (plug κ) = m.bind (plug (.up sch env :: κ)) := by
  rw [continuesOnOutcomes, Outcomes.bind_assoc]
  congr 1
  funext cb
  simp [plug, Frame.outcomes]

theorem erase_bind (declared : List Sig) (m : Outcomes (Result α)) (κ : List (Frame α)) :
    (eraseOutcomes declared m).bind (plug κ) = m.bind (plug (.erased declared :: κ)) := by
  rw [eraseOutcomes, Outcomes.bind_assoc]
  congr 1
  funext cb
  simp [plug, Frame.outcomes]

theorem startsOn_bind (sch : Scheduler) (env : Env) (b : Resource) (s : Sender α) (env' : Env)
    (κ : List (Frame α)) :
    (startsOnOutcomes sch env b fun b' => s.outcomes env' b').bind (plug κ)
      = Outcomes.bind (sch.outcomes env b) (plug (.sched s env' :: κ)) := by
  rw [startsOnOutcomes, Outcomes.bind_assoc]
  congr 1
  funext ⟨c, b'⟩
  cases c <;> simp only [Outcomes.tick_bind, plug, Frame.outcomes]

/-- A step has the outcomes of before, less the step. -/
theorem Sender.outcomes_start (s : Sender α) (env : Env) (b : Resource) (κ : List (Frame α)) :
    (s.start env κ).outcomes b = (s.outcomes env b).bind (plug κ) := by
  cases s with
  | readEnv q =>
    cases h : (q.ask env : Option (Value α)) <;>
      simp [start, outcomes, h, Next.outcomes, Control.outcomes]
  | letSender which s declared throws inner =>
    simp only [start, outcomes, Next.outcomes, Control.outcomes, Outcomes.tick_bind,
      Outcomes.bind_assoc]
    congr 2
  | startsOn sch s =>
    simp only [start, outcomes, Next.outcomes, Control.outcomes, Outcomes.tick_bind,
      startsOn_bind, outcomes_schedule]
  | on sch s =>
    cases h : env.startScheduler <;>
      simp [start, outcomes, h, Next.outcomes, Control.outcomes, continuesOnFrom]
  | onClosure s adapted =>
    cases h : s.getCompletionScheduler .value <;>
      simp [start, outcomes, h, Next.outcomes, Control.outcomes, continuesOnFrom]
  | affine s =>
    cases h : env.startScheduler <;>
      simp [start, outcomes, h, Next.outcomes, Control.outcomes, continuesOnFrom]
  | _ =>
    simp [start, outcomes, Next.outcomes, Control.outcomes, Scheduler.outcomes, through_bind,
      continuesOn_bind, erase_bind]

theorem Control.outcomes_next (k : Control α) (b : Resource) :
    k.next.outcomes b = k.outcomes b := by
  cases k with
  | start s env κ => exact s.outcomes_start env b κ
  | complete c κ =>
    cases κ with
    | nil => rfl
    | cons F κ => exact F.outcomes_receive c b κ

end

end CCForge.Senders
