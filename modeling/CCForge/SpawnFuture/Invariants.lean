import CCForge.SpawnFuture.Model

/-!
# The invariant of spawn_future

Any call that completes the consumer first wins the exchange of `active`, and as long as
nobody has won it some call is on its way to the consumer or the state still has it.
-/

namespace CCForge.SpawnFuture

variable {V E : Type}

/-! ## Where the calls stand -/

/-- The call won the exchange and has not completed the receiver yet. -/
def Cancel.sends : Cancel → ℕ
  | .sending => 1
  | _ => 0

/-- The call took the consumer from the state. -/
def Cancel.took : Cancel → Bool
  | .notifying | .sending => true
  | _ => false

def Cancel.notifies : Cancel → Bool
  | .notifying => true
  | _ => false

namespace Child

def sends : Child V E → ℕ
  | .sending => 1
  | _ => 0

def took : Child V E → Bool
  | .notifying | .sending => true
  | _ => false

def notifies : Child V E → Bool
  | .notifying => true
  | _ => false

/-- The first section of `__complete_with` is behind it. -/
def stored : Child V E → Bool
  | .notifying | .sending | .releasing | .finished => true
  | _ => false

/-- The state keeps itself. -/
def keeps : Child V E → Bool
  | .fresh | .finished => false
  | _ => true

end Child

namespace Start

variable {E : Type}

def isIdle : Start E → Bool
  | .idle => true
  | _ => false

def sends : Start E → ℕ
  | .sendingError _ | .sending | .sendingStopped => 1
  | _ => 0

/-- The exchange of this call cannot have been won by another one. -/
def early : Start E → Bool
  | .entered | .cancelling _ _ | .registering | .failing _ | .consuming => true
  | _ => false

/-- The stop callback did not throw. -/
def proceeds : Start E → Bool
  | .idle | .entered | .cancelling _ _ | .registering | .consuming | .delivering | .sending => true
  | _ => false

/-- The section that takes the result is behind it. -/
def consumed : Start E → Bool
  | .requesting | .delivering | .sending | .finished => true
  | _ => false

/-- The stop callback was made. -/
def installed : Start E → Bool
  | .consuming | .delivering | .sending | .finished => true
  | _ => false

/-- The call has completed the consumer, or was too late for it. -/
def settled : Start E → Bool
  | .unconsumed | .requesting => true
  | _ => false

/-- The stop callback was not made yet. -/
def unmade : Start E → Bool
  | .entered | .cancelling _ false | .registering => true
  | _ => false

/-- It delivers the stored result. -/
def delivers : Start E → Bool
  | .delivering | .sending => true
  | _ => false

/-- It was refused by `__consume`. -/
def rejected : Start E → Bool
  | .refused | .sendingStopped => true
  | _ => false

end Start

namespace Stop

def isIdle : Stop → Bool
  | .idle => true
  | _ => false

def sends : Stop → ℕ
  | .running cancel => cancel.sends
  | _ => 0

def took : Stop → Bool
  | .running cancel => cancel.took
  | _ => false

def notifies : Stop → Bool
  | .running cancel => cancel.notifies
  | _ => false

end Stop

namespace Destroy

/-- In `__abandon_unconsumed`. -/
def abandons : Destroy → Bool
  | .unconsumed | .requesting => true
  | _ => false

/-- The exchange of `__abandon` is behind it. -/
def exchanged : Destroy → Bool
  | .detaching _ | .requestingLast | .finished => true
  | _ => false

end Destroy

namespace State

/-- The calls that won the exchange and have not completed the receiver yet. -/
def sending (s : State V E) : ℕ := s.child.sends + s.stop.sends + s.start.sends

/-- The consumer is registered, or was taken by a call that delivers to it. -/
def handedOver (s : State V E) : Bool := s.consumerCb || s.child.took || s.stop.took

/-- Some call, or the next writer of the result, will reach the consumer. -/
def pending (s : State V E) : Bool :=
  s.start.inProgress || s.consumerCb || s.child.notifies || s.stop.notifies

end State

/-! ## The invariant -/

structure Inv (s : State V E) : Prop where
  fresh : s.child.isFresh = true → s.holder = .spawning
  associated : s.child.isRunning = true → s.association = true
  keepalive : s.keepalive = (s.association && s.child.keeps)
  stored : s.done = true → ∃ writer result, s.writes = [(writer, result)] ∧
    s.result = some result ∧ (writer = .child → s.childResult = some result) ∧
    (writer = .cancel → result = .stopped ∧ s.tokenStop = true)
  childWrote : ∀ result, (.child, result) ∈ s.writes → s.child.stored = true
  unstored : s.done = false → s.writes = [] ∧ s.result = none
  childStored : s.child.stored = true → s.done = true
  childStoring : ∀ result, s.child = .storing result → s.childResult = some result
  winner : s.abandoned.toNat + s.sending + s.completed.length = if s.active then 0 else 1
  idle : s.start.isIdle = true ↔ s.holder ≠ .started
  spawning : s.holder = .spawning → s.destroy = .idle
  consumerState : s.consumerState = true → s.active = true ∧ s.holder = .started
  pending : s.active = true → s.holder = .started → s.pending = true
  handedOver : s.handedOver = true → s.start.isFinished = true ∧ s.threw = none
  registered : s.consumerCb = true → s.done = false
  taken : s.consumerTaken = true → s.start.consumed = true ∨ (s.holder ≠ .started ∧ s.destroy ≠ .idle)
  early : s.start.early = true → s.active = true
  settled : s.start.settled = true → s.active = false
  contents : ∀ completion ∈ s.completed, (∃ error, s.threw = some error ∧ completion = .error error) ∨
    (s.threw = none ∧ s.result = some completion)
  failing : ∀ error, s.start = .failing error ∨ s.start = .sendingError error → s.threw = some error
  proceeds : s.start.proceeds = true → s.threw = none
  rejected : s.start.rejected = false
  inlined : ∀ cancel inCallback, s.start = .cancelling cancel inCallback →
    cancel.took = false ∧ s.tokenStop = true
  delivers : s.start.delivers = true → s.done = true
  cancels : s.stop.inProgress = true → s.tokenStop = true
  cancelled : s.stop.took = true → s.done = true
  possible : s.tokenStop = true → s.stopPossible = true
  handled : s.stopPossible = true → s.start.installed = true → s.threw = none →
    s.callback = .registered ∨ s.stop.inProgress = true ∨ s.done = true ∨ s.active = false
  started : s.holder = .started → s.destroy ≠ .idle → s.start.isFinished = true ∨ s.active = false
  abandons : s.destroy.abandons = true → s.holder ≠ .started
  exchanged : s.destroy.exchanged = true → s.holder ≠ .sender → s.active = false
  unstarted : s.holder ≠ .started → s.destroy.exchanged = false →
    s.active = true ∧ s.callback = .absent
  unmade : s.start.unmade = true → s.callback = .absent
  ran : s.stop.isIdle = false → s.callback = .finished
  receives : s.completed ≠ [] → s.holder = .started

variable {s t : State V E}

theorem inv_initial (h : Initial s) : Inv s := by
  obtain ⟨association, stopPossible, rfl⟩ := h
  constructor <;> simp [Child.isFresh, Child.isRunning, Child.keeps, Child.stored, State.sending,
    Child.sends, Stop.sends, Start.sends, Start.isIdle, State.handedOver, Child.took, Stop.took,
    Start.early, Start.settled, Start.unmade, Stop.isIdle, Start.proceeds, Start.rejected,
    Start.delivers, Start.installed, Stop.inProgress, Destroy.abandons, Destroy.exchanged]

namespace Inv

/-- The one who wins the exchange of an active consumer. -/
theorem quiet (h : Inv s) (ha : s.active = true) :
    s.abandoned = false ∧ s.child.sends = 0 ∧ s.stop.sends = 0 ∧ s.start.sends = 0 ∧
      s.completed = [] := by
  have hw := h.winner
  rw [if_pos ha] at hw
  unfold State.sending at hw
  refine ⟨?_, by omega, by omega, by omega, List.length_eq_zero_iff.mp (by omega)⟩
  cases hb : s.abandoned with
  | false => rfl
  | true =>
    rw [hb] at hw
    simp at hw

/-- The stored result is the one that a completed consumer got. -/
theorem contents_store (h : Inv s) (hd : s.done = false) (result : Completion V E) :
    ∀ completion ∈ s.completed, (∃ error, s.threw = some error ∧ completion = .error error) ∨
      (s.threw = none ∧ some result = some completion) := by
  intro completion hm
  rcases h.contents completion hm with hc | ⟨-, hc⟩
  · exact .inl hc
  · rw [(h.unstored hd).2] at hc
    cases hc

/-- The next completion is the stored result. -/
theorem contents_deliver (h : Inv s) (hd : s.done = true) (ht : s.threw = none) :
    ∀ completion ∈ s.completed ++ [s.result.getD .stopped],
      (∃ error, s.threw = some error ∧ completion = .error error) ∨
      (s.threw = none ∧ s.result = some completion) := by
  intro completion hm
  rcases List.mem_append.mp hm with hm | hm
  · exact h.contents completion hm
  · obtain ⟨writer, result, -, hr, -⟩ := h.stored hd
    rw [List.mem_singleton.mp hm, hr]
    exact .inr ⟨ht, rfl⟩

/-- Before the child stores its result, only a cancel can have stored one. -/
theorem by_cancel (h : Inv s) (hc : s.child.stored = false) (hd : s.done = true) :
    s.writes = [(.cancel, .stopped)] ∧ s.result = some .stopped ∧ s.tokenStop = true := by
  obtain ⟨writer, result, hw, hr, -, hcancel⟩ := h.stored hd
  cases writer with
  | child =>
    have hs := h.childWrote result (by simp [hw])
    rw [hc] at hs
    cases hs
  | cancel =>
    obtain ⟨rfl, ht⟩ := hcancel rfl
    exact ⟨hw, hr, ht⟩

end Inv

end CCForge.SpawnFuture
