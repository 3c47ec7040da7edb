import CCForge.Iocp.Progress

/-!
# What the context owes its operations

The invariant holds in every reachable state. What remains is to read it off, and to see that an
operation is completed when nothing is due any more.
-/

namespace CCForge.Iocp

variable {s s' : State} {op : OpId} {life : Life} {a : Label}

/-! ## When nothing is due -/

/-- No thread can go on, and the kernel has no packet to post. -/
def State.Settled (s : State) : Prop := ∀ a : Label, a.due = true → s.step a = none

theorem State.Settled.callback (h : s.Settled) (op : OpId) : (s.ops op).callback.runs = false := by
  have hs : s.advanceCallback op {} = none := h (.advanceCallback op {}) rfl
  unfold State.advanceCallback at hs
  split at hs
  · cases hs
  · cases hs
  · cases hs
  · next hstoring hcancelling hwaking =>
    cases hc : (s.ops op).callback with
    | storing => exact absurd hc hstoring
    | cancelling => exact absurd hc hcancelling
    | waking => exact absurd hc hwaking
    | _ => rfl

theorem State.Settled.complete (h : s.Settled) (op : OpId) (party : Party) (completion : Completion)
    (stage : CompleteStage) : s.complete op party completion stage ≠ none := by
  cases stage with
  | claim =>
    simp only [State.complete]
    split <;> rintro ⟨⟩
  | teardown =>
    simp only [State.complete, h.callback op]
    rintro ⟨⟩
  | receiver => rintro ⟨⟩

/-- The worker waits at an empty port, or has left. -/
theorem State.Settled.worker (h : s.Settled) :
    (s.worker = .waiting ∧ s.kernel.port = []) ∨ s.worker = .exited := by
  have hs : s.work = none := h .work rfl
  unfold State.work at hs
  split at hs
  · cases hs
  · next hw =>
    split at hs
    · next hport => exact .inl ⟨hw, hport⟩
    · dsimp only at hs
      split at hs <;> cases hs
  · cases hs
  · exact absurd (Option.map_eq_none_iff.mp hs) (h.complete _ _ _ _)
  · cases hs
  · cases hs
  · next hw => exact .inr hw

/-- No record is pending. -/
theorem State.Settled.pendingRecords (h : s.Settled) (hinv : Inv s) : s.pendingRecords = ∅ := by
  rcases h.worker with ⟨hw, hport⟩ | hw
  · rw [Finset.eq_empty_iff_forall_notMem]
    intro op hop
    have hdue := hinv.counts.due op
    have hcall : s.kernel.calls op = none := by
      by_contra hne
      have hsome := Option.isSome_iff_ne_none.mpr hne
      have hs : s.step (.post op true 0 0) = none := h _ rfl
      simp [State.step, Kernel.post, hsome] at hs
    simp [State.due, Kernel.outstanding, hcall, hport, hw, WorkerStage.drains, hop] at hdue
  · rw [← Finset.card_eq_zero, ← hinv.counts.pending]
    exact (hinv.leaves (.inr hw)).2

/-- A handle can always turn out to be invalid. -/
theorem associate_invalid (k : Kernel) (handle : Handle) :
    k.associate handle (some errorInvalidHandle) = some k := by
  simp [Kernel.associate, errorInvalidHandle, errorInvalidParameter]

/-- The section of a start is not held up. -/
theorem start_ne_none (s : State) (op : OpId) :
    s.start op { associate := some errorInvalidHandle } ≠ none := by
  unfold State.start
  dsimp only
  split
  · rintro ⟨⟩
  split
  · rintro ⟨⟩
  split
  · rintro ⟨⟩
  rw [associate_invalid]
  rintro ⟨⟩

/-- The start of a started operation has returned. -/
theorem State.Settled.returned (h : s.Settled) (hinv : Inv s) (hop : op ∈ s.started) :
    (s.ops op).stage = .returned := by
  have hs : s.advanceStart op { associate := some errorInvalidHandle } = none := h (.advance op _) rfl
  have hcallback := h.callback op
  unfold State.advanceStart at hs
  dsimp only at hs
  split at hs
  · next hst => exact absurd hst ((hinv.started op).mp hop)
  · split_ifs at hs
  · split_ifs at hs
  · next hst =>
    -- The callback that the start waits for was executed.
    have hadmits := hinv.callbacks op
    rw [hst] at hadmits
    rcases hadmits with hruns | hspent
    · rw [hcallback] at hruns
      cases hruns
    · rw [if_pos hspent] at hs
      cases hs
  · exact absurd (Option.map_eq_none_iff.mp hs) (start_ne_none s op)
  · cases hs
  · cases hs
  · cases hs
  · exact absurd (Option.map_eq_none_iff.mp hs) (h.complete _ _ _ _)
  · next hst => exact hst

theorem State.Settled.completed (h : s.Settled) (hinv : Inv s) (hop : op ∈ s.started) :
    (s.ops op).completions.length = 1 := by
  obtain ⟨life, hl⟩ := hinv.lives op
  have hlength : (s.ops op).completions.length = life.completers.length := by
    rw [← hl.completers, List.length_map]
  have hfits := hl.stage
  rw [h.returned hinv hop] at hfits
  rw [hlength]
  cases life with
  | undecided => rcases hfits with hfits | hfits <;> cases hfits
  | refused claimed => rcases hfits with hfits | hfits <;> cases hfits
  | accepted =>
    have hmem := hl.pending.mpr rfl
    rw [h.pendingRecords hinv] at hmem
    cases hmem
  | drained claimed =>
    have hserved := hl.served
    rcases h.worker with ⟨hw, -⟩ | hw
    all_goals
      rw [hw] at hserved
      cases hserved
  | completed party => rfl

/-! ## What holds in every state -/

structure Guarantees (s : State) : Prop where
  pending : s.pending = s.pendingRecords.card
  active : ∀ handle, s.active handle = (s.recordsOf handle).card
  /-- No guard of a counter ever finds the counter at zero. -/
  matched : s.mismatch = false
  /-- A record is pending exactly while its one packet is to be posted or to be drained. -/
  packet : ∀ op, s.due op = if op ∈ s.pendingRecords then 1 else 0
  /-- The worker never finds a packet without a record. -/
  drained : ∀ op ok bytes error, s.worker = .draining op ok bytes error → op ∈ s.pendingRecords
  once : ∀ op, (s.ops op).completions.length ≤ 1
  /-- The start completes an operation that no packet ever comes for, the worker the others. -/
  path : ∀ op party completion, (party, completion) ∈ (s.ops op).completions →
    s.kernel.packets op ≤ 1 ∧ (party = .start ↔ s.kernel.packets op = 0)
  /-- Before the packet is drained, the operation is not completed. -/
  early : ∀ op, op ∈ s.pendingRecords ∨ op ∉ s.started → (s.ops op).completions = []
  exited : s.worker = .exited → (s.closed ∨ s.stopped) ∧ s.pending = 0
  /-- What is due comes to an end, and then every started operation is completed. -/
  bounded : ∀ labels s', (∀ a ∈ labels, Label.due a = true) → run State.step s labels = some s' →
    labels.length ≤ s.remaining
  settled : s.Settled → ∀ op ∈ s.started, (s.ops op).completions.length = 1

theorem Follows.length (h : Follows s op life) : (s.ops op).completions.length = life.completers.length := by
  rw [← h.completers, List.length_map]

/-- An operation is completed by the party of its life. -/
theorem Follows.path (h : Follows s op life) {party : Party} {completion : Completion}
    (hmem : (party, completion) ∈ (s.ops op).completions) :
    s.kernel.packets op ≤ 1 ∧ (party = .start ↔ s.kernel.packets op = 0) := by
  have hparty : party ∈ life.completers := by
    rw [← h.completers]
    exact List.mem_map_of_mem hmem
  rw [h.packets]
  cases life with
  | completed other =>
    obtain rfl := List.mem_singleton.mp hparty
    cases party <;> simp [Life.packets]
  | _ => cases hparty

theorem Inv.early (h : Inv s) (hop : op ∈ s.pendingRecords ∨ op ∉ s.started) :
    (s.ops op).completions = [] := by
  obtain ⟨life, hl⟩ := h.lives op
  rw [← List.length_eq_zero_iff, hl.length]
  rcases hop with hpending | hfresh
  · obtain rfl := hl.pending.mp hpending
    rfl
  · have hfits := hl.stage
    rw [not_not.mp fun hne => hfresh ((h.started op).mpr hne)] at hfits
    obtain rfl : life = .undecided := hfits
    rfl

end CCForge.Iocp
