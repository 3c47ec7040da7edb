import CCForge.Epoll.Model
import CCForge.Epoll.Places
import CCForge.Lib.Carried

/-!
# Where a record is

A started record is with the thread that starts it, in its slot, in a batch or with the thread
that completes it, and at last gone. It never goes back, and what its fields may be follows from
where it is. The invariant says this of all records, and what the frames of the threads rely on.
-/

namespace CCForge.Epoll

/-- How far a thread has come with a record that it carries. -/
inductive Stage where
  | starting (stage : StartStage)
  | queued
  | completing (stage : CompleteStage)
  deriving DecidableEq

inductive Where where
  | fresh
  | slot
  | gone
  deriving DecidableEq

abbrev RecordPlace := Place ThreadId Stage Where

/-- A record only moves on. -/
def rank : RecordPlace → ℕ
  | .elsewhere .fresh => 0
  | .carried _ (.starting _) => 1
  | .elsewhere .slot => 2
  | _ => 3

namespace Frame

/-- The records that a frame carries. -/
def load : Frame → List (Record × Stage)
  | .start record .check => [(record, .starting .check)]
  | .start record .install => [(record, .starting .install)]
  | .start record .locked => [(record, .starting .locked)]
  | .batch queue _ => queue.map fun action => (action.1, .queued)
  | .complete record _ stage => [(record, .completing stage)]
  | _ => []

/-- The frames that another frame can be on top of. -/
def calling : Frame → Bool
  | .start _ .locked => true
  | .start _ .returning => true
  | .callback _ requested => requested
  | .finish _ => true
  | .batch _ _ => true
  | .complete _ _ .receiver => true
  | _ => false

/-- The frame is going to look for the record in its slot. -/
def cancels (record : Record) : Frame → Bool
  | .start other .recheck => other = record
  | .cancelRecord other => other = record
  | _ => false

end Frame

/-- What the fields of an operation are where its record is. -/
def StageOk (o : Op) : RecordPlace → Prop
  | .elsewhere .fresh =>
    o.started = false ∧ o.startReturned = false ∧ o.done = false ∧ o.delivered = false ∧
      o.callback = .absent ∧ o.completions = [] ∧ o.abandoned = false
  | .carried _ (.starting stage) =>
    o.started = true ∧ o.startReturned = false ∧ o.done = false ∧ o.delivered = false ∧
      o.completions = [] ∧ o.abandoned = false ∧ o.destroying = false ∧
      (stage = .locked → o.stopPossible = true → o.callback ≠ .absent) ∧
      (stage ≠ .locked → o.callback = .absent)
  | .elsewhere .slot =>
    o.started = true ∧ o.done = o.abandoned ∧ o.delivered = false ∧ o.completions = [] ∧
      o.destroyed = none ∧ (o.stopPossible = true → o.callback ≠ .absent)
  | .carried _ .queued =>
    o.started = true ∧ o.done = o.abandoned ∧ o.delivered = false ∧ o.completions = []
  | .carried _ (.completing .claim) =>
    o.started = true ∧ o.done = o.abandoned ∧ o.delivered = false ∧ o.completions = []
  | .carried t (.completing (.teardown won)) =>
    o.started = true ∧ o.done = true ∧ o.abandoned = !won ∧ o.delivered = false ∧
      o.completions = [] ∧ o.completingThread = some t
  | .carried t (.completing .receiver) =>
    o.started = true ∧ o.done = true ∧ o.abandoned = false ∧ o.delivered = false ∧
      o.callback = .absent ∧ o.completions.length = 1 ∧ o.completingThread = some t
  | .carried _ (.completing .deliver) =>
    o.started = true ∧ o.done = true ∧ o.delivered = false ∧ o.callback = .absent ∧
      o.completions.length = if o.abandoned then 0 else 1
  | .elsewhere .gone =>
    o.started = true ∧ o.done = true ∧ (o.delivered = false → o.abandoned = true) ∧
      (o.delivered = true → o.callback = .absent) ∧
      o.completions.length = if o.abandoned then 0 else 1

structure OpOk (o : Op) (p : RecordPlace) : Prop where
  stage : StageOk o p
  token : o.tokenStopped = true → o.stopPossible = true
  spent : o.callback = .spent → o.stopRequested = true
  abandoned : o.abandoned = true → o.destroying = true
  destroyed : o.destroyed ≠ none → o.destroying = true ∧ o.callback = .absent ∧
    (o.started = true → o.abandoned = true ∨ o.completions ≠ [])
  destroyer : ∀ u t, o.destroyed = some u → p = .carried t (.completing .receiver) → t = u

/-- What a frame relies on. -/
def FrameOk (ops : Record → Op) (place : Record → RecordPlace) : Frame → Prop
  | .start record .recheck => 2 ≤ rank (place record)
  | .start record .returning => 2 ≤ rank (place record)
  | .callback record true => (ops record).stopRequested = true
  | .destroy record .discard => (ops record).abandoned = true ∧ 2 ≤ rank (place record)
  | .destroy record .reset => (ops record).abandoned = true ∧ 3 ≤ rank (place record)
  | .destroy record .wait => (ops record).destroying = true ∧ 3 ≤ rank (place record)
  | _ => True

/-- What no step takes back. -/
structure Grows (o : Op) (p : RecordPlace) (o' : Op) (p' : RecordPlace) : Prop where
  rank : rank p ≤ rank p'
  abandoned : o.abandoned = true → o'.abandoned = true
  stopRequested : o.stopRequested = true → o'.stopRequested = true
  destroying : o.destroying = true → o'.destroying = true

def loads (stack : ThreadId → List Frame) (t : ThreadId) : List (Record × Stage) :=
  (stack t).flatMap Frame.load

structure Inv (s : State) (place : Record → RecordPlace) : Prop where
  sound : s.registry.Sound
  stopped : s.registry.stopped = true → ∀ fd kind, s.registry.resident fd kind = none
  slot : ∀ record, s.registry.resident record.fd record.kind = some record ↔
    place record = .elsewhere .slot
  carries : Carries (loads s.stack) place
  ops : ∀ record, OpOk (s.ops record) (place record)
  frames : ∀ t, ∀ f ∈ s.stack t, FrameOk s.ops place f
  calling : ∀ t, ∀ f ∈ (s.stack t).tail, f.calling = true
  runs : ∀ t record, .callback record false ∈ s.stack t → (s.ops record).callback = .running t
  running : ∀ t record, (s.ops record).callback = .running t →
    ∃ requested, .callback record requested ∈ s.stack t
  cancels : ∀ record, (s.ops record).stopRequested = true → place record = .elsewhere .slot →
    ∃ t, ∃ f ∈ s.stack t, f.cancels record = true

variable {s s' : State} {place place' : Record → RecordPlace} {t : ThreadId} {f : Frame}
  {old new rest : List Frame} {record : Record} {o o' : Op} {p p' : RecordPlace}

/-! ## Operations -/

theorem Grows.refl (o : Op) (p : RecordPlace) : Grows o p o p := ⟨le_rfl, id, id, id⟩

theorem FrameOk.grow {ops ops' : Record → Op} (h : FrameOk ops place f)
    (hg : ∀ record, Grows (ops record) (place record) (ops' record) (place' record)) :
    FrameOk ops' place' f := by
  unfold FrameOk at *
  split at h
  · exact h.trans (hg _).rank
  · exact h.trans (hg _).rank
  · exact (hg _).stopRequested h
  · exact ⟨(hg _).abandoned h.1, h.2.trans (hg _).rank⟩
  · exact ⟨(hg _).abandoned h.1, h.2.trans (hg _).rank⟩
  · exact ⟨(hg _).destroying h.1, h.2.trans (hg _).rank⟩
  · trivial

/-- A record that is past its slot is carried to its completion, or is gone. -/
theorem rank_three (h : 3 ≤ rank p) : p = .elsewhere .gone ∨ (∃ t, p = .carried t .queued) ∨
    ∃ t stage, p = .carried t (.completing stage) := by
  cases p with
  | carried t stage =>
    cases stage with
    | starting stage => simp [rank] at h
    | queued => exact .inr (.inl ⟨t, rfl⟩)
    | completing stage => exact .inr (.inr ⟨t, stage, rfl⟩)
  | elsewhere e =>
    cases e with
    | fresh => simp [rank] at h
    | slot => simp [rank] at h
    | gone => exact .inl rfl

/-! ## Stacks -/

theorem loads_update (stack : ThreadId → List Frame) (t : ThreadId) (frames : List Frame) :
    loads (Function.update stack t frames) =
      Function.update (loads stack) t (frames.flatMap Frame.load) := by
  funext u
  by_cases hu : u = t
  · subst hu
    simp [loads]
  · simp [loads, Function.update_of_ne hu]

theorem loads_cons (hst : s.stack t = f :: rest) :
    loads s.stack t = f.load ++ rest.flatMap Frame.load := by
  rw [loads, hst, List.flatMap_cons]

/-- A step in which one thread replaces frames on top of its stack. -/
structure Replaces (s s' : State) (t : ThreadId) (old new rest : List Frame) : Prop where
  before : s.stack t = old ++ rest
  after : s'.stack = Function.update s.stack t (new ++ rest)
  rest : ∀ f ∈ rest, f.calling = true
  new : ∀ f ∈ new.tail, f.calling = true

namespace Replaces

theorem self (h : Replaces s s' t old new rest) : s'.stack t = new ++ rest := by
  rw [h.after, Function.update_self]

theorem other (h : Replaces s s' t old new rest) {u : ThreadId} (hu : u ≠ t) :
    s'.stack u = s.stack u := by
  rw [h.after, Function.update_of_ne hu]

/-- A frame after the step is new or was there before. -/
theorem mem (h : Replaces s s' t old new rest) {u : ThreadId} (hf : f ∈ s'.stack u) :
    (u = t ∧ f ∈ new) ∨ (u = t ∧ f ∈ rest) ∨ (u ≠ t ∧ f ∈ s.stack u) := by
  by_cases hu : u = t
  · subst hu
    rw [h.self, List.mem_append] at hf
    exact hf.imp (fun hm => ⟨rfl, hm⟩) fun hm => .inl ⟨rfl, hm⟩
  · rw [h.other hu] at hf
    exact .inr (.inr ⟨hu, hf⟩)

theorem mem_before (h : Replaces s s' t old new rest) (hf : f ∈ rest) : f ∈ s.stack t := by
  rw [h.before]
  exact List.mem_append_right _ hf

/-- A frame before the step is still there, or it was replaced. -/
theorem mem_after (h : Replaces s s' t old new rest) {u : ThreadId} (hf : f ∈ s.stack u) :
    f ∈ s'.stack u ∨ (u = t ∧ f ∈ old) := by
  by_cases hu : u = t
  · subst hu
    rw [h.before, List.mem_append] at hf
    rw [h.self, List.mem_append]
    rcases hf with hf | hf
    · exact .inr ⟨rfl, hf⟩
    · exact .inl (.inr hf)
  · rw [h.other hu]
    exact .inl hf

end Replaces

/-- What a step has to show. -/
theorem Inv.step (h : Inv s place) (hst : Replaces s s' t old new rest)
    (hsound : s'.registry.Sound)
    (hstopped : s'.registry.stopped = true → ∀ fd kind, s'.registry.resident fd kind = none)
    (hslot : ∀ record, s'.registry.resident record.fd record.kind = some record ↔
      place' record = .elsewhere .slot)
    (hcarries : Carries (Function.update (loads s.stack) t ((new ++ rest).flatMap Frame.load)) place')
    (hops : ∀ record, OpOk (s'.ops record) (place' record))
    (hgrows : ∀ record, Grows (s.ops record) (place record) (s'.ops record) (place' record))
    (hnew : ∀ f ∈ new, FrameOk s'.ops place' f)
    (hruns : ∀ record, .callback record false ∈ new → (s'.ops record).callback = .running t)
    (hothers : ∀ record u, u ≠ t → (s.ops record).callback = .running u →
      (s'.ops record).callback = .running u)
    (hrunning : ∀ record u, (s'.ops record).callback = .running u →
      (u = t ∧ ∃ requested, .callback record requested ∈ new) ∨
      ((s.ops record).callback = .running u ∧ (u = t → ∀ requested, .callback record requested ∉ old)))
    (hcancels : ∀ record, (s'.ops record).stopRequested = true → place' record = .elsewhere .slot →
      (∃ f ∈ new, f.cancels record = true) ∨
      ((s.ops record).stopRequested = true ∧ place record = .elsewhere .slot ∧
        ∀ f ∈ old, f.cancels record = false)) : Inv s' place' where
  sound := hsound
  stopped := hstopped
  slot := hslot
  carries := by
    rw [hst.after, loads_update]
    exact hcarries
  ops := hops
  frames u f hf := by
    rcases hst.mem hf with ⟨-, hf⟩ | ⟨-, hf⟩ | ⟨-, hf⟩
    · exact hnew f hf
    · exact (h.frames t f (hst.mem_before hf)).grow hgrows
    · exact (h.frames u f hf).grow hgrows
  calling u f hf := by
    by_cases hu : u = t
    · subst hu
      rw [hst.self] at hf
      cases new with
      | nil => exact hst.rest f (List.mem_of_mem_tail hf)
      | cons g new =>
        rcases List.mem_append.mp hf with hf | hf
        · exact hst.new f hf
        · exact hst.rest f hf
    · rw [hst.other hu] at hf
      exact h.calling u f hf
  runs u record hf := by
    rcases hst.mem hf with ⟨rfl, hf⟩ | ⟨-, hf⟩ | ⟨hu, hf⟩
    · exact hruns record hf
    · have hcalling := hst.rest _ hf
      -- Below the frames that moved there are only calls of the user.
      simp [Frame.calling] at hcalling
    · exact hothers record u hu (h.runs u record hf)
  running u record hr := by
    rcases hrunning record u hr with ⟨rfl, requested, hm⟩ | ⟨hold, hnot⟩
    · exact ⟨requested, by rw [hst.self]; exact List.mem_append_left _ hm⟩
    · obtain ⟨requested, hm⟩ := h.running u record hold
      rcases hst.mem_after hm with hm | ⟨hu, hm⟩
      · exact ⟨requested, hm⟩
      · exact absurd hm (hnot hu requested)
  cancels record hs hp := by
    rcases hcancels record hs hp with ⟨f, hf, hc⟩ | ⟨hs, hp, hnot⟩
    · exact ⟨t, f, by rw [hst.self]; exact List.mem_append_left _ hf, hc⟩
    · obtain ⟨u, f, hf, hc⟩ := h.cancels record hs hp
      rcases hst.mem_after hf with hf | ⟨-, hf⟩
      · exact ⟨u, f, hf, hc⟩
      · rw [hnot f hf] at hc
        cases hc

end CCForge.Epoll
