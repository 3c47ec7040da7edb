import CCForge.UringContext.Runs

/-!
# What the context owes its operations

The invariant holds in every reachable state. What remains is to read it off.
-/

namespace CCForge.UringContext

variable {s : State} {op : Address} {life : Life}

/-! ## The retirement -/

/-- An operation is accepted when its phase is no longer `starting`. -/
structure Retires (s : State) (op : Address) : Prop where
  once : (s.ops op).retirements ≤ 1 ∧ (s.ops op).resumptions ≤ (s.ops op).retirements
  /-- The kernel has let go of a retired operation, and of one that was not accepted. -/
  released : (s.ops op).retirements = 1 ∨ (s.ops op).phase = .starting →
    s.kernel.outstanding (.target op) = 0 ∧ s.kernel.outstanding (.cancel op) = 0
  /-- An operation that is queued counts its target before it is published. -/
  pending : (s.ops op).registered = true → (s.ops op).pendingCqes =
    (if (s.ops op).submissionPending = true then 1 else s.kernel.outstanding (.target op)) +
      s.kernel.outstanding (.cancel op)
  bounded : (s.ops op).registered = true → (s.ops op).pendingCqes = 1 ∨ (s.ops op).pendingCqes = 2
  /-- The cancel is with the kernel only after its publication. -/
  cancel : (s.ops op).registered = true → (s.ops op).cancelPublished = false →
    s.kernel.outstanding (.cancel op) = 0
  operations : op ∈ s.operations ↔ (s.ops op).phase ≠ .starting ∧ (s.ops op).retirements = 0
  registered : (s.ops op).registered = true ↔ op ∈ s.operations
  queued : op ∈ s.submissions ↔ (s.ops op).registered = true ∧ (s.ops op).submissionPending = true
  /-- A retired operation that is not resumed waits for the poller. -/
  ready : op ∈ s.ready ++ s.poller.batch ↔ (s.ops op).retirements = 1 ∧ (s.ops op).resumptions = 0
  /-- The address is used again only after the resumption. -/
  reused : (s.ops op).stage = .idle ∨ (s.ops op).stage = .finished →
    (s.ops op).phase = .starting ∨ (s.ops op).retirements = 1 ∧ (s.ops op).resumptions = 1

theorem Follows.released (h : Follows s op life)
    (hlife : (s.ops op).retirements = 1 ∨ (s.ops op).phase = .starting) :
    s.kernel.outstanding (.target op) = 0 ∧ s.kernel.outstanding (.cancel op) = 0 := by
  rw [h.fields.retirements, h.fields.phase] at hlife
  rw [h.targets, h.cancels]
  cases life with
  | queued requested => rcases hlife with hlife | hlife <;> cases hlife
  | submitted target cancel => rcases hlife with hlife | hlife <;> cases hlife
  | _ => exact ⟨rfl, rfl⟩

/-- The counter of a registered operation counts what is outstanding. -/
theorem Follows.pending (h : Follows s op life) (hregistered : (s.ops op).registered = true) :
    (s.ops op).pendingCqes =
      (if (s.ops op).submissionPending = true then 1 else s.kernel.outstanding (.target op)) +
        s.kernel.outstanding (.cancel op) := by
  rw [h.fields.registered] at hregistered
  rw [h.fields.pendingCqes, h.fields.submissionPending, h.targets, h.cancels]
  cases life with
  | queued requested => rfl
  | submitted target cancel => rfl
  | _ => cases hregistered

theorem Follows.bounded (h : Follows s op life) (hregistered : (s.ops op).registered = true) :
    (s.ops op).pendingCqes = 1 ∨ (s.ops op).pendingCqes = 2 := by
  have hvalid := h.fields.valid
  rw [h.fields.registered] at hregistered
  rw [h.fields.pendingCqes]
  cases life with
  | queued requested => exact .inl rfl
  | submitted target cancel =>
    cases target with
    | true => cases cancel <;> first | exact .inl rfl | exact .inr rfl
    | false =>
      obtain rfl : cancel = .published := hvalid.resolve_left (by rintro ⟨⟩)
      exact .inl rfl
  | _ => cases hregistered

theorem Follows.retires (h : Follows s op life) : Retires s op where
  once := by
    rw [h.fields.retirements, h.fields.resumptions]
    cases life <;> simp [Life.retirements, Life.resumptions]
  released := h.released
  pending := h.pending
  bounded := h.bounded
  cancel hregistered hpublished := by
    have hfields := h.fields.cancelPublished
    rw [h.fields.registered] at hregistered
    rw [h.cancels]
    cases life with
    | submitted target cancel =>
      cases cancel with
      | published => exact absurd (hfields _ rfl) (by rw [hpublished]; rintro ⟨⟩)
      | _ => rfl
    | _ => rfl
  operations := by
    rw [h.operations, h.fields.phase, h.fields.retirements]
    cases life <;> simp [Life.registered, Life.phase, Life.retirements]
  registered := by rw [h.operations, h.fields.registered]
  queued := by
    rw [h.submissions, h.fields.registered, h.fields.submissionPending]
    cases life <;> simp [Life.registered, Life.submissionPending]
  ready := by
    rw [h.ready, h.fields.retirements, h.fields.resumptions]
    cases life <;> simp [Life.retirements, Life.resumptions]
  reused hstage := by
    have hfits := h.fields.stage
    rw [h.fields.phase, h.fields.retirements, h.fields.resumptions]
    have hlife : life = .fresh ∨ life = .resumed := by
      rcases hstage with hst | hst
      · rw [hst] at hfits
        exact .inl hfits
      · rw [hst] at hfits
        exact hfits
    rcases hlife with rfl | rfl
    · exact .inl rfl
    · exact .inr ⟨rfl, rfl⟩

/-- An operation is retired once, and when the kernel has let go of it. -/
theorem operations_retired_when_released (h : Reachable State.step State.IsInitial s) :
    (∀ op, Retires s op) ∧ s.operations.Nodup ∧ s.submissions.Nodup ∧
      (s.ready ++ s.poller.batch).Nodup := by
  have hinv := reachable_inv h
  refine ⟨fun op => ?_, hinv.operations, hinv.submissions, hinv.ready⟩
  obtain ⟨life, hl⟩ := hinv.lives op
  exact hl.retires

/-- The cancel finds no room and is parked, and its completion comes before that of its target. -/
theorem operations_retired_when_released_parked : ∃ s, Reachable State.step State.IsInitial s ∧
    (s.ops 0).result = -125 ∧ (s.ops 0).resumptions = 1 ∧ (s.ops 1).pendingCqes = 1 ∧
    s.operations = [1] ∧ Retires s 0 ∧ Retires s 1 := by
  obtain ⟨s, hs, hresult, hresumed, hpending, hoperations⟩ :
      ∃ s, run State.step { kernel := { entries := 1 } }
        [.create 0 { size := 8, stopPossible := true }, .await 0, .advance 0, .advance 0, .advance 0,
          .poll {}, .poll {}, .create 1 { size := 8 }, .await 1, .advance 1, .advance 1, .advance 1,
          .poll {}, .poll {}, .poll {}, .poll {},
          .poll { submit := fun _ => .some 0 EBUSY, flush := .some 0 EBUSY },
          .stopToken 0, .runCallback 0, .requestCancel 0,
          .poll {}, .poll {}, .poll {}, .poll {}, .poll {}, .poll {}, .poll {}, .poll {}, .poll {},
          .post (.cancel 0) 0, .post (.target 0) (-125), .poll {}, .poll {}, .poll {}, .poll {},
          .poll {}, .poll {}, .poll {}] = some s ∧
      (s.ops 0).result = -125 ∧ (s.ops 0).resumptions = 1 ∧ (s.ops 1).pendingCqes = 1 ∧
      s.operations = [1] := ⟨_, rfl, rfl, rfl, rfl, rfl⟩
  have hr : Reachable State.step State.IsInitial s := ⟨_, ⟨1, rfl⟩, _, hs⟩
  have hall := (operations_retired_when_released hr).1
  exact ⟨s, hr, hresult, hresumed, hpending, hoperations, hall 0, hall 1⟩

end CCForge.UringContext
