import CCForge.Strand.Model

/-!
# The locked sections of a strand

What each section under the mutex does to the flags and to the records, one lemma
for each section. A section entered from outside (a `Visit`) may begin a turn if none
is on; the section at the end of a turn (a `Handback`) is entered by the thread
whose turn it is.
-/

namespace CCForge.Strand

namespace Frame

/-- The frames of a thread whose turn it is. -/
def holds : Frame → Bool
  | .turn _ | .completing _ | .turnEnd | .batch _ | .completingStopped _ _ => true
  | _ => false

/-- The record whose completion the frame is executing. -/
def current : Frame → List RecordId
  | .completing r | .completingStopped r _ => [r]
  | _ => []

/-- The records that the frame will complete next, in order. -/
def hand : Frame → List RecordId
  | .turn r => [r]
  | .batch deferredStopped => deferredStopped
  | .completingStopped _ deferredStopped => deferredStopped
  | _ => []

/-- A thread with such a frame has committed to launching a runner. -/
def commits : Frame → Bool
  | .launch | .launchOnce | .launching true => true
  | _ => false

end Frame

namespace Shared

/-- How the flags and the two lists go together in every state. -/
structure Ok (s : Shared) : Prop where
  activeRunning : s.active = true → s.running = true
  queueRunning : s.queue ≠ [] → s.running = true
  runningIdle : s.running = true → s.active = false → s.queue ≠ []
  deferred : s.deferredStopped ≠ [] → s.active = true ∧ s.closed = true
  closedIdle : s.closed = true → s.active = false → s.queue = []

/-- What a section leaves behind that accepted the records `new`. -/
structure Section (s : Shared) (p : Shared × List Frame) (new : List RecordId) : Prop where
  ok : p.1.Ok
  records : p.2.flatMap Frame.hand ++ p.1.deferredStopped ++ p.1.queue =
    s.deferredStopped ++ s.queue ++ new
  taken : ∀ r, .turn r ∈ p.2 → s.closed = false
  /-- The call goes on with a turn, or with no frame that holds one. -/
  frames : (∃ f, p.2 = [f] ∧ f.holds = true ∧ f.current = [] ∧ p.1.active = true) ∨
    p.2.filter Frame.holds = [] ∧ ∀ f ∈ p.2, f.hand = []

structure Visit (s : Shared) (p : Shared × List Frame) (new : List RecordId) : Prop
    extends Section s p new where
  busy : s.active = true → p.1.active = true ∧ p.2 = []
  idle : p.2.filter Frame.holds = [] → p.1.active = s.active

structure Handback (s : Shared) (p : Shared × List Frame) : Prop extends Section s p [] where
  idle : p.2.filter Frame.holds = [] → p.1.active = false

variable {s : Shared}

theorem Ok.deferred_nil (h : s.Ok) (ha : s.active = false) : s.deferredStopped = [] := by
  by_contra hd
  have hactive := (h.deferred hd).1
  rw [ha] at hactive
  cases hactive

theorem enqueueDeferred_visit (h : s.Ok) (r : RecordId) :
    s.Visit ({ s with closed := true }.enqueueDeferred r) [r] := by
  by_cases ha : s.active = true
  · have hr := h.activeRunning ha
    refine ⟨⟨⟨?_, ?_, ?_, ?_, ?_⟩, ?_, ?_, ?_⟩, ?_, ?_⟩ <;>
      simp [enqueueDeferred, deferQueueLocked, appendDeferredStoppedLocked, ha, hr]
  · have ha' : s.active = false := by simpa using ha
    have hd := h.deferred_nil ha'
    refine ⟨⟨⟨?_, ?_, ?_, ?_, ?_⟩, ?_, ?_, ?_⟩, ?_, ?_⟩ <;>
      simp [enqueueDeferred, takeDeferredStoppedLocked, deferQueueLocked,
        appendDeferredStoppedLocked, ha', hd, Frame.holds, Frame.hand, Frame.current]

theorem enqueue_visit (h : s.Ok) (r : RecordId) (allocated : Bool) :
    s.Visit (s.enqueue r allocated) [r] := by
  by_cases hc : s.closed = true
  · have hs : { s with closed := true } = s := by rw [← hc]
    have he : s.enqueue r allocated = { s with closed := true }.enqueueDeferred r := by
      simp only [enqueue, hc, if_true, hs]
    rw [he]
    exact enqueueDeferred_visit h r
  · have hc' : s.closed = false := by simpa using hc
    cases allocated with
    | false =>
      have he : s.enqueue r false = { s with closed := true }.enqueueDeferred r := by
        simp [enqueue, hc']
      rw [he]
      exact enqueueDeferred_visit h r
    | true =>
      have hopen : s.deferredStopped = [] := by
        by_contra hd
        exact hc (h.deferred hd).2
      by_cases hr : s.running = true
      · refine ⟨⟨⟨?_, ?_, ?_, ?_, ?_⟩, ?_, ?_, ?_⟩, ?_, ?_⟩ <;>
          simp [enqueue, hc', hr, hopen]
      · have hr' : s.running = false := by simpa using hr
        have ha : s.active = false := by
          by_contra ha
          exact hr (h.activeRunning (by simpa using ha))
        refine ⟨⟨⟨?_, ?_, ?_, ?_, ?_⟩, ?_, ?_, ?_⟩, ?_, ?_⟩ <;>
          simp [enqueue, hc', hr', hopen, ha, Frame.holds, Frame.hand]

/-- An `enqueue` that leaves a record in the queue of an idle strand has either found
one there or launches. -/
theorem enqueue_launches (h : s.Ok) (r : RecordId) (allocated : Bool)
    (hq : (s.enqueue r allocated).1.queue ≠ []) (ha : (s.enqueue r allocated).1.active = false) :
    (s.queue ≠ [] ∧ s.active = false) ∨ .launch ∈ (s.enqueue r allocated).2 := by
  have hbusy := (enqueue_visit h r allocated).busy
  have hidle : s.active = false := by
    by_contra hne
    rw [(hbusy (by simpa using hne)).1] at ha
    cases ha
  by_cases hr : s.running = true
  · exact .inl ⟨h.runningIdle hr hidle, hidle⟩
  · right
    revert hq ha
    unfold enqueue enqueueDeferred
    by_cases hc : s.closed = true <;> cases allocated <;>
      simp [hc, hr, hidle, deferQueueLocked, appendDeferredStoppedLocked,
        takeDeferredStoppedLocked]

theorem shutdown_visit (h : s.Ok) : s.Visit s.shutdown [] := by
  by_cases ha : s.active = true
  · have hr := h.activeRunning ha
    refine ⟨⟨⟨?_, ?_, ?_, ?_, ?_⟩, ?_, ?_, ?_⟩, ?_, ?_⟩ <;> simp [shutdown, ha, hr]
  · have ha' : s.active = false := by simpa using ha
    have hd := h.deferred_nil ha'
    by_cases hq : s.queue = []
    · refine ⟨⟨⟨?_, ?_, ?_, ?_, ?_⟩, ?_, ?_, ?_⟩, ?_, ?_⟩ <;> simp [shutdown, ha', hd, hq]
    · refine ⟨⟨⟨?_, ?_, ?_, ?_, ?_⟩, ?_, ?_, ?_⟩, ?_, ?_⟩ <;>
        simp [shutdown, ha', hd, hq, deferQueueLocked, takeDeferredStoppedLocked, Frame.holds,
          Frame.hand, Frame.current]

theorem shutdown_settles (h : s.Ok) : s.shutdown.1.queue ≠ [] → s.shutdown.1.active = true := by
  have hok := (shutdown_visit h).ok
  intro hq
  by_contra ha
  refine hq (hok.closedIdle ?_ (by simpa using ha))
  unfold shutdown
  simp only
  split_ifs <;> rfl

theorem runOne_visit (h : s.Ok) : s.Visit s.runOne [] := by
  by_cases ha : s.active = true
  · refine ⟨⟨?_, ?_, ?_, ?_⟩, ?_, ?_⟩ <;> simp [runOne, ha, h]
  · have ha' : s.active = false := by simpa using ha
    have hd := h.deferred_nil ha'
    cases hq : s.queue with
    | nil =>
      refine ⟨⟨⟨?_, ?_, ?_, ?_, ?_⟩, ?_, ?_, ?_⟩, ?_, ?_⟩ <;> simp [runOne, ha', hd, hq]
    | cons r rest =>
      have hc : s.closed = false := by
        by_contra hc
        simp [h.closedIdle (by simpa using hc) ha'] at hq
      have hr := h.queueRunning (by simp [hq])
      refine ⟨⟨⟨?_, ?_, ?_, ?_, ?_⟩, ?_, ?_, ?_⟩, ?_, ?_⟩ <;>
        simp [runOne, ha', hd, hq, hc, hr, Frame.holds, Frame.hand, Frame.current]

theorem runOne_settles (h : s.Ok) : s.runOne.1.queue ≠ [] → s.runOne.1.active = true := by
  intro hq
  by_contra ha
  have hvisit := runOne_visit h
  have hrun := hvisit.ok.queueRunning hq
  revert hq ha hrun
  unfold runOne
  by_cases ha : s.active = true
  · simp [ha]
  · cases hq : s.queue with
    | nil => simp [ha, h.deferred_nil (by simpa using ha)]
    | cons r rest => by_cases hc : s.closed = true <;>
        simp [ha, hc, deferQueueLocked, takeDeferredStoppedLocked]

theorem endTurn_handback (h : s.Ok) (ha : s.active = true) : s.Handback s.endTurn := by
  have hr := h.activeRunning ha
  by_cases hc : s.closed = true
  · by_cases hw : s.queue ≠ [] ∨ s.deferredStopped ≠ []
    · refine ⟨⟨⟨?_, ?_, ?_, ?_, ?_⟩, ?_, ?_, ?_⟩, ?_⟩ <;>
        simp [endTurn, hc, hw, ha, hr, deferQueueLocked, takeDeferredStoppedLocked, Frame.holds,
          Frame.hand, Frame.current]
    · push Not at hw
      refine ⟨⟨⟨?_, ?_, ?_, ?_, ?_⟩, ?_, ?_, ?_⟩, ?_⟩ <;> simp [endTurn, hw]
  · have hd : s.deferredStopped = [] := by
      by_contra hd
      exact hc (h.deferred hd).2
    by_cases hq : s.queue = []
    · refine ⟨⟨⟨?_, ?_, ?_, ?_, ?_⟩, ?_, ?_, ?_⟩, ?_⟩ <;> simp [endTurn, hc, hd, hq]
    · refine ⟨⟨⟨?_, ?_, ?_, ?_, ?_⟩, ?_, ?_, ?_⟩, ?_⟩ <;>
        simp [endTurn, hc, hd, hq, hr, Frame.holds, Frame.hand]

theorem endTurn_launches (hq : s.endTurn.1.queue ≠ []) (ha : s.endTurn.1.active = false)
    (hactive : s.active = true) : .launch ∈ s.endTurn.2 := by
  revert hq ha
  unfold endTurn
  split_ifs with hw
  · simp [deferQueueLocked, takeDeferredStoppedLocked, hactive]
  · dsimp only
    split_ifs with hq <;> simp [hq]

theorem nextBatch_handback (h : s.Ok) (ha : s.active = true) : s.Handback s.nextBatch := by
  have hr := h.activeRunning ha
  by_cases hd : s.deferredStopped ++ s.queue = []
  · obtain ⟨hd, hq⟩ := List.append_eq_nil_iff.mp hd
    refine ⟨⟨⟨?_, ?_, ?_, ?_, ?_⟩, ?_, ?_, ?_⟩, ?_⟩ <;>
      simp [nextBatch, deferQueueLocked, takeDeferredStoppedLocked, hd, hq]
  · refine ⟨⟨⟨?_, ?_, ?_, ?_, ?_⟩, ?_, ?_, ?_⟩, ?_⟩ <;>
      simp [nextBatch, deferQueueLocked, takeDeferredStoppedLocked, hd, hr, ha, Frame.holds,
        Frame.hand, Frame.current]

theorem nextBatch_queue : s.nextBatch.1.queue = [] := by
  by_cases hd : s.deferredStopped ++ s.queue = [] <;>
    simp [nextBatch, deferQueueLocked, takeDeferredStoppedLocked, hd]

end Shared

end CCForge.Strand
