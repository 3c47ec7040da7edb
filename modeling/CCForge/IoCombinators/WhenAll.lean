import CCForge.IoCombinators.Joins

/-!
# when_all_results

The receiver gets the results of both children. The status of the aggregate, or the channel,
is decided by a priority over the two outcomes.
-/

namespace CCForge.IoCombinators.WhenAll

/-- `when_all_result`. -/
structure Payload (V : Child → Type) where
  result : (i : Child) → Option (IoResult (V i))

structure Data (V : Child → Type) (E : Type) where
  stopped : Child → Bool := fun _ => false
  result : (i : Child) → Option (IoResult (V i)) := fun _ => none
  unexpectedError : Option E := none

variable {V : Child → Type} {E : Type}

namespace Data

/-- The first unexpected error is kept. -/
def unexpected (d : Data V E) (e : E) : Data V E :=
  if d.unexpectedError.isSome then d else { d with unexpectedError := some e }

/-- `store_result`. The children are asked to stop after a failure and after a result without a
value. -/
def storeResult (d : Data V E) (i : Child) (r : IoResult (V i)) (throws : Option E) :
    Data V E × Bool :=
  match throws with
  | none => ({ d with result := Function.update d.result i (some r) }, r.status != .value)
  | some e => (d.unexpected e, true)

def storeStopped (d : Data V E) (i : Child) : Data V E × Bool :=
  ({ d with stopped := Function.update d.stopped i true }, true)

def storeUnexpectedError (d : Data V E) (e : E) : Data V E × Bool := (d.unexpected e, true)

def store (d : Data V E) : Store V E → Data V E × Bool
  | ⟨i, .result r, throws⟩ => d.storeResult i r throws
  | ⟨i, .stopped, _⟩ => d.storeStopped i
  | ⟨_, .error e, _⟩ => d.storeUnexpectedError e

/-- The error of a result of child `i` whose status is an error. -/
def failed (d : Data V E) (i : Child) : Option ErrorCode :=
  match d.result i with
  | some r => if r.status = .error then some r.error else none
  | none => none

def reachedEof (d : Data V E) (i : Child) : Bool :=
  match d.result i with
  | some r => r.eof
  | none => false

/-- The action of `maybe_complete_locked`. `throws` is what moving the results throws. -/
def outcome (d : Data V E) (throws : Option E) : Outcome (Payload V) E :=
  if d.unexpectedError.isSome then .error d.unexpectedError
  else
    match throws with
    | some e => .error (some e)
    | none =>
      let payload : Payload V := { result := d.result }
      match d.failed .first, d.failed .second with
      | some error, _ => .value (.failure error payload)
      | none, some error => .value (.failure error payload)
      | none, none =>
        if d.reachedEof .first ∨ d.reachedEof .second then .value (.endOfFile payload)
        else if d.stopped .first ∨ d.stopped .second ∨ (d.result .first).isNone ∨
            (d.result .second).isNone then .stopped
        else .value (.success payload)

end Data

def policy (V : Child → Type) (E : Type) : Policy V E (Payload V) (Data V E) where
  init := {}
  store := Data.store
  startError d e := { d with unexpectedError := some e }
  outcome := Data.outcome

/-! ## The priority -/

/-- What a child contributed. -/
inductive ChildOutcome (X E : Type) where
  | result (r : IoResult X)
  | stopped
  | unexpected (e : E)
  deriving DecidableEq, Repr

namespace ChildOutcome

variable {X : Type}

/-- A result that cannot be stored is an unexpected exception. -/
def of : Signal X E × Option E → ChildOutcome X E
  | (.result r, none) => .result r
  | (.result _, some e) => .unexpected e
  | (.stopped, _) => .stopped
  | (.error e, _) => .unexpected e

def unexpected? : ChildOutcome X E → Option E
  | .unexpected e => some e
  | _ => none

def result? : ChildOutcome X E → Option (IoResult X)
  | .result r => some r
  | _ => none

/-- The error of a result that is one. -/
def error? : ChildOutcome X E → Option ErrorCode
  | .result r => if r.status = .error then some r.error else none
  | _ => none

def isEof : ChildOutcome X E → Bool
  | .result r => r.status == .eof
  | _ => false

def isStopped : ChildOutcome X E → Bool
  | .stopped => true
  | _ => false

end ChildOutcome

/-- The channel, and for an aggregate its status. -/
inductive Verdict where
  | unexpected
  | failure (error : ErrorCode)
  | endOfFile
  | stopped
  | success
  deriving DecidableEq, Repr

/-- Unexpected exception, the first child's error, the second child's error, end of file, stopped,
success, in this order. -/
def verdict {X Y : Type} (x : ChildOutcome X E) (y : ChildOutcome Y E) : Verdict :=
  if x.unexpected?.isSome ∨ y.unexpected?.isSome then .unexpected
  else if let some error := x.error? then .failure error
  else if let some error := y.error? then .failure error
  else if x.isEof ∨ y.isEof then .endOfFile
  else if x.isStopped ∨ y.isStopped then .stopped
  else .success

/-- What the receiver gets for the outcomes of both children. `first` is the unexpected exception
that was stored first, and `threw` is what moving the results threw. -/
def Decides (x : (i : Child) → ChildOutcome (V i) E) (first threw : Option E)
    (o : Outcome (Payload V) E) : Prop :=
  match verdict (x .first) (x .second), threw with
  | .unexpected, _ => o = .error first
  | _, some e => o = .error (some e)
  | .stopped, none => o = .stopped
  | .failure error, none => ∃ a, o = .value a ∧ a.status = .error ∧ a.error = error ∧
      ∀ i, a.values.result i = (x i).result?
  | .endOfFile, none => ∃ a, o = .value a ∧ a.status = .eof ∧ ∀ i, a.values.result i = (x i).result?
  | .success, none => ∃ a, o = .value a ∧ a.status = .value ∧
      ∀ i, a.values.result i = (x i).result?

structure Aggregates (s : State V E (Payload V) (Data V E)) : Prop where
  once : s.completed.length ≤ 1
  exactlyOnce : s.over → s.outgoing = 0 → s.completed.length = 1
  startError : ∀ e, s.recorded = some e → ∀ o ∈ s.completed, o = .error (some e)
  /-- The outcome of each child decides, and for two unexpected exceptions the order of the stores. -/
  outcome : s.recorded = none → ∀ o ∈ s.completed, ∃ i x y,
    s.stores = [⟨i, x⟩, ⟨i.other, y⟩] ∧
    ∃ z : (i : Child) → ChildOutcome (V i) E, z i = .of x ∧ z i.other = .of y ∧
      Decides z ((z i).unexpected? <|> (z i.other).unexpected?) s.threw o

/-! ## The data after the stores -/

/-- The data is that of the outcomes `z` so far, with `first` the first unexpected exception. -/
structure Holds (d : Data V E) (z : (i : Child) → Option (ChildOutcome (V i) E)) (first : Option E) :
    Prop where
  result : ∀ i, d.result i = (z i).bind ChildOutcome.result?
  stopped : ∀ i, d.stopped i = (z i).any ChildOutcome.isStopped
  unexpectedError : d.unexpectedError = first

theorem holds_init : Holds ({} : Data V E) (fun _ => none) none :=
  ⟨fun _ => rfl, fun _ => rfl, rfl⟩

theorem Holds.unexpected {d : Data V E} {z : (i : Child) → Option (ChildOutcome (V i) E)}
    {first : Option E} (h : Holds d z first) {i : Child} (hz : z i = none) (e : E) :
    Holds (d.unexpected e) (Function.update z i (some (.unexpected e))) (first <|> some e) := by
  have hresult : (d.unexpected e).result = d.result ∧ (d.unexpected e).stopped = d.stopped := by
    unfold Data.unexpected
    split_ifs <;> exact ⟨rfl, rfl⟩
  refine ⟨?_, ?_, ?_⟩
  · intro j
    rw [hresult.1, h.result]
    by_cases hj : j = i
    · subst hj
      simp [hz, ChildOutcome.result?]
    · simp [Function.update_of_ne hj]
  · intro j
    rw [hresult.2, h.stopped]
    by_cases hj : j = i
    · subst hj
      simp [hz, ChildOutcome.isStopped]
    · simp [Function.update_of_ne hj]
  · unfold Data.unexpected
    rw [← h.unexpectedError]
    cases hu : d.unexpectedError <;> simp [hu]

theorem Holds.store {d : Data V E} {z : (i : Child) → Option (ChildOutcome (V i) E)}
    {first : Option E} (h : Holds d z first) {i : Child} (hz : z i = none)
    (x : Signal (V i) E × Option E) :
    Holds (d.store ⟨i, x⟩).1 (Function.update z i (some (.of x)))
      (first <|> (ChildOutcome.of x).unexpected?) := by
  obtain ⟨signal, throws⟩ := x
  cases signal with
  | error e => exact h.unexpected hz e
  | stopped =>
    refine ⟨?_, ?_, ?_⟩
    · intro j
      by_cases hj : j = i
      · subst hj
        simpa [Data.store, Data.storeStopped, hz, ChildOutcome.of, ChildOutcome.result?] using
          h.result j
      · simpa [Data.store, Data.storeStopped, Function.update_of_ne hj] using h.result j
    · intro j
      by_cases hj : j = i
      · subst hj
        simp [Data.store, Data.storeStopped, ChildOutcome.of, ChildOutcome.isStopped]
      · simpa [Data.store, Data.storeStopped, Function.update_of_ne hj] using h.stopped j
    · show d.unexpectedError = (first <|> none)
      rw [h.unexpectedError]
      cases first <;> rfl
  | result r =>
    cases throws with
    | some e => exact h.unexpected hz e
    | none =>
      refine ⟨?_, ?_, ?_⟩
      · intro j
        by_cases hj : j = i
        · subst hj
          simp [Data.store, Data.storeResult, ChildOutcome.of, ChildOutcome.result?]
        · simpa [Data.store, Data.storeResult, Function.update_of_ne hj] using h.result j
      · intro j
        by_cases hj : j = i
        · subst hj
          simpa [Data.store, Data.storeResult, hz, ChildOutcome.of, ChildOutcome.isStopped] using
            h.stopped j
        · simpa [Data.store, Data.storeResult, Function.update_of_ne hj] using h.stopped j
      · show d.unexpectedError = (first <|> none)
        rw [h.unexpectedError]
        cases first <;> rfl

/-- The action follows the priority. -/
theorem decides_of_holds {d : Data V E} {z : (i : Child) → ChildOutcome (V i) E} {first : Option E}
    (h : Holds d (fun i => some (z i)) first)
    (hfirst : first.isSome = true ↔
      (z .first).unexpected?.isSome = true ∨ (z .second).unexpected?.isSome = true)
    (threw : Option E) : Decides z first threw (d.outcome threw) := by
  have hresult : ∀ i, d.result i = (z i).result? := h.result
  have hfailed : ∀ i, d.failed i = (z i).error? := by
    intro i
    unfold Data.failed
    rw [hresult]
    cases z i <;> rfl
  have heof : ∀ i, d.reachedEof i = (z i).isEof := by
    intro i
    unfold Data.reachedEof
    rw [hresult]
    cases z i <;> rfl
  have hstopped : ∀ i, d.stopped i = (z i).isStopped := h.stopped
  have hall : ∀ i, (z i).unexpected?.isSome = false → (z i).isStopped = false →
      (d.result i).isNone = false := by
    intro i
    rw [hresult]
    cases z i <;> simp [ChildOutcome.unexpected?, ChildOutcome.isStopped, ChildOutcome.result?]
  unfold Decides Data.outcome verdict
  rw [h.unexpectedError, hfailed, hfailed, heof, heof, hstopped, hstopped]
  by_cases hu : first.isSome = true
  · rw [if_pos hu, if_pos (hfirst.mp hu)]
  · have hnone : ¬((z .first).unexpected?.isSome = true ∨ (z .second).unexpected?.isSome = true) :=
      fun hx => hu (hfirst.mpr hx)
    rw [if_neg hu, if_neg hnone]
    rw [not_or, Bool.not_eq_true, Bool.not_eq_true] at hnone
    cases threw with
    | some e =>
      cases (z .first).error? with
      | some error => rfl
      | none =>
        cases (z .second).error? with
        | some error => rfl
        | none =>
          dsimp only
          split_ifs <;> rfl
    | none =>
      cases (z .first).error? with
      | some error => exact ⟨_, rfl, by simp, by simp, hresult⟩
      | none =>
        cases (z .second).error? with
        | some error => exact ⟨_, rfl, by simp, by simp, hresult⟩
        | none =>
          dsimp only
          by_cases he : (z .first).isEof = true ∨ (z .second).isEof = true
          · rw [if_pos he, if_pos he]
            exact ⟨_, rfl, by simp, hresult⟩
          · rw [if_neg he, if_neg he]
            by_cases hs : (z .first).isStopped = true ∨ (z .second).isStopped = true
            · rw [if_pos hs, if_pos (by tauto)]
            · rw [if_neg hs]
              rw [not_or, Bool.not_eq_true, Bool.not_eq_true] at hs
              have hone := hall .first hnone.1 hs.1
              have htwo := hall .second hnone.2 hs.2
              rw [if_neg (by simp [hs, hone, htwo])]
              exact ⟨_, rfl, by simp, hresult⟩

variable {s : State V E (Payload V) (Data V E)}

/-- The outcomes of both children, by child. -/
theorem exists_outcomes (i : Child) (x : ChildOutcome (V i) E) (y : ChildOutcome (V i.other) E) :
    ∃ z : (j : Child) → ChildOutcome (V j) E, z i = x ∧ z i.other = y ∧
      Function.update (Function.update (fun _ => none : (j : Child) → Option (ChildOutcome (V j) E))
        i (some x)) i.other (some y) = fun j => some (z j) := by
  cases i with
  | first =>
    refine ⟨fun j => Child.rec (motive := fun j => ChildOutcome (V j) E) x y j, rfl, rfl, ?_⟩
    funext j
    cases j <;> simp [Child.other]
  | second =>
    refine ⟨fun j => Child.rec (motive := fun j => ChildOutcome (V j) E) y x j, rfl, rfl, ?_⟩
    funext j
    cases j <;> simp [Child.other]

/-- `when_all_results` completes the receiver once, by the outcomes of the children. -/
theorem when_all_results_aggregates (h : Reachable (step (policy V E)) (Initial (policy V E)) s) :
    Aggregates s := by
  have hi := reachable_inv h
  constructor
  · exact hi.length_le_one
  · exact hi.length_eq_one
  · intro e hr o ho
    obtain ⟨d, rfl⟩ := hi.outcome_of_start hr ho
    rfl
  · intro hr o ho
    obtain ⟨i, x, y, hstores, rfl⟩ := hi.outcome_of_stores hr ho
    obtain ⟨z, hzx, hzy, hz⟩ := exists_outcomes (E := E) i (.of x) (.of y)
    refine ⟨i, x, y, hstores, z, hzx, hzy, ?_⟩
    have hone := holds_init.store (V := V) (i := i) rfl x
    have htwo := hone.store (i := i.other) (by simp [Child.other_ne i]) y
    rw [hz, ← hzx, ← hzy] at htwo
    refine decides_of_holds htwo ?_ s.threw
    cases i with
    | first =>
      show ((none <|> (z .first).unexpected?) <|> (z .second).unexpected?).isSome = true ↔ _
      cases (z .first).unexpected? <;> cases (z .second).unexpected? <;> simp
    | second =>
      show ((none <|> (z .second).unexpected?) <|> (z .first).unexpected?).isSome = true ↔ _
      cases (z .first).unexpected? <;> cases (z .second).unexpected? <;> simp

/-- The second child stores end of file before the first one fails. -/
theorem when_all_results_aggregates_failure :
    ∃ s : State (fun _ => ℕ) ℕ (Payload fun _ => ℕ) (Data (fun _ => ℕ) ℕ),
      Reachable (step (policy _ ℕ)) (Initial (policy _ ℕ)) s ∧
      s.stores.map Sigma.fst = [.second, .first] ∧ s.completed.length = 1 ∧ Aggregates s := by
  obtain ⟨s, hs, h1, h2⟩ : ∃ s : State (fun _ => ℕ) ℕ (Payload fun _ => ℕ) (Data (fun _ => ℕ) ℕ),
      run (step (policy _ ℕ)) { data := (policy _ ℕ).init }
        [.store ⟨.second, .result (.endOfFile 4), none⟩, .advance .second none,
          .store ⟨.first, .result (.failure { value := 5 } 3), none⟩, .advance .first none,
          .advance .second none, .advance .second none, .advance .first none,
          .advance .first none] = some s ∧
      s.stores.map Sigma.fst = [.second, .first] ∧ s.completed.length = 1 := ⟨_, rfl, rfl, rfl⟩
  have hr : Reachable (step (policy _ ℕ)) (Initial (policy _ ℕ)) s := ⟨_, rfl, _, hs⟩
  exact ⟨s, hr, h1, h2, when_all_results_aggregates hr⟩

/-- Moving the results into the aggregate throws: two values give an error. -/
theorem when_all_results_error_of_values :
    ∃ s : State (fun _ => ℕ) ℕ (Payload fun _ => ℕ) (Data (fun _ => ℕ) ℕ),
      run (step (policy _ ℕ)) { data := (policy _ ℕ).init }
        [.store ⟨.first, .result (.success 3), none⟩, .store ⟨.second, .result (.success 4), none⟩,
          .advance .first none, .advance .second (some 9), .advance .first none,
          .advance .second none] = some s ∧
      s.recorded = none ∧ s.completed = [.error (some 9)] :=
  ⟨_, rfl, rfl, rfl⟩

end CCForge.IoCombinators.WhenAll
