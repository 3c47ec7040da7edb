import CCForge.Senders.Machine
import Mathlib.Algebra.BigOperators.Group.List.Basic
import Mathlib.Algebra.GroupWithZero.Nat
import Mathlib.Algebra.Order.Group.Nat
import Mathlib.Data.List.Nodup
import Mathlib.Logic.Function.Basic

/-!
# Threads, loops and operations

Any number of operations on any number of threads and of callers of the loops' `run`.
An agent executes one operation at a time. A step is a step of one operation, a caller
taking the first task of its loop, the start of a new operation, or a stop request.
-/

namespace CCForge.Senders

open Outcomes (All bound delay tick)

variable {α : Type}

/-- Who executes: a thread of the program, or one of the callers of a loop's `run`. -/
inductive Agent where
  | thread (id : ℕ)
  | worker (loop : LoopId) (caller : ℕ)
  deriving DecidableEq, Repr

def Agent.resource : Agent → Resource
  | thread id => .thread id
  | worker i _ => .loop i

inductive Status (α : Type) where
  | running (agent : Agent) (control : Control α)
  | parked (loop : LoopId) (env : Env) (frames : List (Frame α))
  | completed (completion : Completion α) (resource : Resource)

namespace Status

def agent : Status α → Option Agent
  | running a _ => some a
  | _ => none

def loop : Status α → Option LoopId
  | parked i _ _ => some i
  | _ => none

def isCompleted : Status α → Bool
  | completed _ _ => true
  | _ => false

end Status

/-- A sender and a receiver that `connect` accepts. -/
structure Connection (α : Type) [Decay α] where
  sender : Sender α
  env : Env
  connectable : sender.Connectable env

structure Op (α : Type) [Decay α] where
  connection : Connection α
  origin : Resource
  status : Status α

structure State (α : Type) [Decay α] where
  ops : List (Op α) := []
  queue : LoopId → List ℕ := fun _ => []
  /-- The stop sources with a requested stop. -/
  requested : ℕ → Bool := fun _ => false

inductive Label (α : Type) [Decay α] where
  | start (agent : Agent) (connection : Connection α)
  | advance (op : ℕ)
  | runTask (loop : LoopId) (caller : ℕ)
  | requestStop (source : ℕ)

variable [Decay α]

namespace State

def busy (s : State α) (a : Agent) : Bool := s.ops.any fun op => op.status.agent == some a

def setStatus (s : State α) (n : ℕ) (op : Op α) (st : Status α) : State α :=
  { s with ops := s.ops.set n { op with status := st } }

def setQueue (s : State α) (i : LoopId) (q : List ℕ) : State α :=
  { s with queue := Function.update s.queue i q }

/-- What the task of a `run_loop` operation completes with. -/
def taskCompletion (s : State α) (env : Env) : Completion α :=
  match env.getStopToken with
  | .never => .value []
  | .inplace source | .any (some source) => if s.requested source then .stopped else .value []
  | .any none => .value []

def advance (s : State α) (n : ℕ) (op : Op α) (a : Agent) : Next α → Option (State α)
  | .run k => some (s.setStatus n op (.running a k))
  | .park i env κ => some ((s.setStatus n op (.parked i env κ)).setQueue i (s.queue i ++ [n]))
  | .deliver c => some (s.setStatus n op (.completed c a.resource))
  | .stuck => none

def runTask (s : State α) (i : LoopId) (a : Agent) (n : ℕ) (rest : List ℕ) (op : Op α) :
    Option (State α) :=
  match op.status with
  | .parked _ env κ =>
    some ((s.setStatus n op (.running a (.complete (s.taskCompletion env) κ))).setQueue i rest)
  | _ => none

def step (s : State α) : Label α → Option (State α)
  | .start a c =>
    if s.busy a then none
    else some { s with ops := s.ops ++ [⟨c, a.resource, .running a (.start c.sender c.env [])⟩] }
  | .advance n => s.ops[n]?.bind fun op =>
    match op.status with
    | .running a k => s.advance n op a k.next
    | _ => none
  | .runTask i caller =>
    if s.busy (.worker i caller) then none
    else match s.queue i with
      | [] => none
      | n :: rest => s.ops[n]?.bind (s.runTask i (.worker i caller) n rest)
  | .requestStop source => some { s with requested := Function.update s.requested source true }

def IsInitial (s : State α) : Prop := s = {}

end State

/-- The steps that bring operations forward. -/
def Label.Works : Label α → Prop
  | .advance _ | .runTask _ _ => True
  | _ => False

namespace Op

/-- What can still become of the operation. -/
def remaining (op : Op α) : Outcomes (Result α) :=
  match op.status with
  | .running a k => k.outcomes a.resource
  | .parked i env κ => (resume i env).bind (plug κ)
  | .completed c b => Outcomes.pure (c, b)

/-- The outcomes of the whole operation, with the call of the program's receiver. -/
def total (op : Op α) : Outcomes (Result α) :=
  (op.connection.sender.outcomes op.connection.env op.origin).bind (plug [])

/-- What the operation did so far agrees with the outcomes of its sender. -/
def Faithful (op : Op α) : Prop := ∃ taken, ∀ r ∈ delay taken op.remaining, r ∈ op.total

/-- `op'` is the operation one step later. -/
structure Follows (op op' : Op α) : Prop where
  connection : op'.connection = op.connection
  origin : op'.origin = op.origin
  outcomes : ∀ r ∈ tick op'.remaining, r ∈ op.remaining

theorem Follows.total {op op' : Op α} (h : op.Follows op') : op'.total = op.total := by
  rw [Op.total, h.connection, h.origin, Op.total]

theorem Follows.faithful {op op' : Op α} (h : op.Follows op') (hop : op.Faithful) :
    op'.Faithful := by
  obtain ⟨taken, ht⟩ := hop
  refine ⟨taken + 1, fun r hr => ?_⟩
  rw [h.total]
  -- one more step has been taken, one less remains
  refine ht r ?_
  obtain ⟨n, x⟩ := r
  obtain ⟨k, rfl, hk⟩ := Outcomes.mem_delay.mp hr
  exact Outcomes.mem_delay.mpr ⟨k + 1, by omega, h.outcomes _ (Outcomes.mem_tick.mpr ⟨k, rfl, hk⟩)⟩

end Op

theorem Frame.outcomes_ne_nil (F : Frame α) (cb : Result α) : F.outcomes cb ≠ [] := by
  cases F with
  | receiver r => simp [outcomes, Outcomes.pure]
  | letOuter which throws inner env =>
    exact letOutcomes_ne_nil _ _ (fun vs b => (inner vs).outcomes_ne_nil env b) _ _
  | up sch env => exact through_ne_nil _ (sch.outcomes_ne_nil env cb.2)
  | sched s env =>
    obtain ⟨c, b⟩ := cb
    cases c with
    | value vs => exact through_ne_nil _ (s.outcomes_ne_nil env b)
    | error e => simp [outcomes, Outcomes.pure]
    | stopped => simp [outcomes, Outcomes.pure]
  | erased declared =>
    cases h : eraseCompletion declared cb.1 <;> simp [outcomes, h, Outcomes.pure, Outcomes.stuck]

theorem plug_ne_nil (κ : List (Frame α)) (cb : Result α) : plug κ cb ≠ [] := by
  induction κ generalizing cb with
  | nil => simp [plug, Outcomes.pure, tick]
  | cons F κ ih => exact Outcomes.tick_ne_nil (Outcomes.bind_ne_nil (F.outcomes_ne_nil cb) ih)

theorem Control.outcomes_ne_nil (k : Control α) (b : Resource) : k.outcomes b ≠ [] := by
  cases k with
  | start s env κ => exact Outcomes.bind_ne_nil (s.outcomes_ne_nil env b) (plug_ne_nil κ)
  | complete c κ => exact plug_ne_nil κ (c, b)

namespace Op

theorem remaining_ne_nil (op : Op α) : op.remaining ≠ [] := by
  unfold remaining
  split
  · exact Control.outcomes_ne_nil _ _
  · exact Outcomes.bind_ne_nil (resume_ne_nil _ _) (plug_ne_nil _)
  · simp [Outcomes.pure]

theorem Follows.bound_lt {op op' : Op α} (h : op.Follows op') :
    bound op'.remaining < bound op.remaining :=
  Outcomes.bound_lt op'.remaining_ne_nil h.outcomes

/-- Nothing that can become of a faithful operation is outside of its completion signatures. -/
theorem Faithful.covered {op : Op α} (h : op.Faithful) :
    Covers (op.connection.sender.completionSignatures op.connection.env) op.remaining := by
  obtain ⟨taken, ht⟩ := h
  have htotal : Covers (op.connection.sender.completionSignatures op.connection.env) op.total :=
    (op.connection.sender.outcomes_covered _ _ op.connection.connectable).bind fun cb hcb =>
      Outcomes.all_tick.mpr (Outcomes.all_pure.mpr hcb)
  intro n r hr
  exact htotal (taken + n) r (ht _ (Outcomes.mem_delay.mpr ⟨n, rfl, hr⟩))

end Op

/-! ## One step -/

/-- What a step does. -/
inductive Stepped (s : State α) : Label α → State α → Prop where
  | start {a : Agent} (c : Connection α) (hidle : s.busy a = false) :
    Stepped s (.start a c)
      { s with ops := s.ops ++ [⟨c, a.resource, .running a (.start c.sender c.env [])⟩] }
  | advance {n : ℕ} {op : Op α} {a : Agent} {k k' : Control α} (hop : s.ops[n]? = some op)
      (hst : op.status = .running a k) (hk : k.next = .run k') :
    Stepped s (.advance n) (s.setStatus n op (.running a k'))
  | park {n : ℕ} {op : Op α} {a : Agent} {k : Control α} {i : LoopId} {env : Env}
      {κ : List (Frame α)} (hop : s.ops[n]? = some op) (hst : op.status = .running a k)
      (hk : k.next = .park i env κ) :
    Stepped s (.advance n) ((s.setStatus n op (.parked i env κ)).setQueue i (s.queue i ++ [n]))
  | deliver {n : ℕ} {op : Op α} {a : Agent} {k : Control α} {c : Completion α}
      (hop : s.ops[n]? = some op) (hst : op.status = .running a k) (hk : k.next = .deliver c) :
    Stepped s (.advance n) (s.setStatus n op (.completed c a.resource))
  | runTask {i : LoopId} {caller n : ℕ} {rest : List ℕ} {op : Op α} {j : LoopId} {env : Env}
      {κ : List (Frame α)} (hidle : s.busy (.worker i caller) = false) (hq : s.queue i = n :: rest)
      (hop : s.ops[n]? = some op) (hst : op.status = .parked j env κ) :
    Stepped s (.runTask i caller)
      ((s.setStatus n op
        (.running (.worker i caller) (.complete (s.taskCompletion env) κ))).setQueue i rest)
  | requestStop (source : ℕ) :
    Stepped s (.requestStop source) { s with requested := Function.update s.requested source true }

theorem stepped_of_step {s t : State α} {l : Label α} (h : s.step l = some t) : Stepped s l t := by
  cases l with
  | start a c =>
    rw [State.step] at h
    split at h
    · cases h
    · rename_i hb
      cases h
      exact .start c (by simpa using hb)
  | advance n =>
    obtain ⟨op, hop, h⟩ := Option.bind_eq_some_iff.mp h
    cases hst : op.status with
    | running a k =>
      simp only [hst] at h
      cases hk : k.next with
      | run k' =>
        rw [hk] at h
        cases h
        exact .advance hop hst hk
      | park i env κ =>
        rw [hk] at h
        cases h
        exact .park hop hst hk
      | deliver c =>
        rw [hk] at h
        cases h
        exact .deliver hop hst hk
      | stuck =>
        -- a machine that is stuck has no step
        rw [hk] at h
        cases h
    | parked i env κ =>
      rw [hst] at h
      cases h
    | completed c b =>
      rw [hst] at h
      cases h
  | runTask i caller =>
    rw [State.step] at h
    split at h
    · cases h
    · rename_i hb
      split at h
      · cases h
      · rename_i n rest hq
        obtain ⟨op, hop, h⟩ := Option.bind_eq_some_iff.mp h
        cases hst : op.status with
        | parked j env κ =>
          simp only [State.runTask, hst] at h
          cases h
          exact .runTask (by simpa using hb) hq hop hst
        | running a k =>
          simp only [State.runTask, hst] at h
          cases h
        | completed c b =>
          simp only [State.runTask, hst] at h
          cases h
  | requestStop source =>
    cases h
    exact .requestStop source

end CCForge.Senders
