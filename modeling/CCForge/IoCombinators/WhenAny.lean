import CCForge.IoCombinators.Joins

/-!
# when_any_results

The child whose store section runs first is the winner. It decides the channel and the
status of the aggregate, which carries the results of both.
-/

namespace CCForge.IoCombinators.WhenAny

inductive TerminalKind where
  | none
  | result
  | error
  | stopped
  deriving DecidableEq, Repr

/-- `when_any_result`. -/
structure Payload (V : Child → Type) where
  result : (i : Child) → Option (IoResult (V i))
  winner : Child

structure Data (V : Child → Type) (E : Type) where
  winner : Option Child := none
  winnerKind : TerminalKind := .none
  result : (i : Child) → Option (IoResult (V i)) := fun _ => none
  winnerError : Option E := none
  startError : Option E := none

variable {V : Child → Type} {E : Type}

namespace Data

/-- `select_winner_locked`. -/
def selectWinner (d : Data V E) (i : Child) (kind : TerminalKind) : Data V E × Bool :=
  if d.winner.isSome then (d, false)
  else ({ d with winner := some i, winnerKind := kind }, true)

/-- `store_result`. `throws` is what storing the result throws. -/
def storeResult (d : Data V E) (i : Child) (r : IoResult (V i)) (throws : Option E) :
    Data V E × Bool :=
  let (t, winner) := d.selectWinner i .result
  match throws with
  | none => ({ t with result := Function.update t.result i (some r) }, winner)
  | some e => (if winner then { t with winnerKind := .error, winnerError := some e } else t, winner)

def storeStopped (d : Data V E) (i : Child) : Data V E × Bool :=
  d.selectWinner i .stopped

def storeError (d : Data V E) (i : Child) (e : E) : Data V E × Bool :=
  let (t, winner) := d.selectWinner i .error
  (if winner then { t with winnerError := some e } else t, winner)

def store (d : Data V E) : Store V E → Data V E × Bool
  | ⟨i, .result r, throws⟩ => d.storeResult i r throws
  | ⟨i, .stopped, _⟩ => d.storeStopped i
  | ⟨i, .error e, _⟩ => d.storeError i e

/-- `set_result_action`. -/
def resultAction (status : IoStatus) (error : ErrorCode) (payload : Payload V) :
    Outcome (Payload V) E :=
  match status with
  | .error => .value (.failure error payload)
  | .eof => .value (.endOfFile payload)
  | .value => .value (.success payload)

/-- The action of `maybe_complete_locked`. `throws` is what moving the results throws. -/
def outcome (d : Data V E) (throws : Option E) : Outcome (Payload V) E :=
  if d.startError.isSome then .error d.startError
  else if d.winnerKind = .error then .error d.winnerError
  else
    match d.winner with
    | none => .stopped
    | some i =>
      if d.winnerKind = .stopped then .stopped
      else
        match throws with
        | some e => .error (some e)
        | none =>
          match d.result i with
          | none => .invalid
          | some r => resultAction r.status r.error { result := d.result, winner := i }

end Data

def policy (V : Child → Type) (E : Type) : Policy V E (Payload V) (Data V E) where
  init := {}
  store := Data.store
  startError d e := { d with startError := some e }
  outcome := Data.outcome

/-! ## The guarantees -/

/-- What a store keeps of a completion. -/
def kept {X : Type} : Signal X E × Option E → Option (IoResult X)
  | (.result r, none) => some r
  | _ => none

/-- What the winner's store `x` and the loser's store `y` make of the receiver's completion. -/
def Decides (i : Child) (x : Signal (V i) E × Option E) (y : Signal (V i.other) E × Option E)
    (threw : Option E) (o : Outcome (Payload V) E) : Prop :=
  match x.1, x.2 with
  | .stopped, _ => o = .stopped
  | .error e, _ => o = .error (some e)
  | .result _, some e => o = .error (some e)
  | .result r, none =>
    match threw with
    | some e => o = .error (some e)
    | none => ∃ a, o = .value a ∧ a.status = r.status ∧
        a.error = (if r.status = .error then r.error else {}) ∧ a.values.winner = i ∧
        a.values.result i = some r ∧ a.values.result i.other = kept y

structure PicksWinner (s : State V E (Payload V) (Data V E)) : Prop where
  once : s.completed.length ≤ 1
  exactlyOnce : s.over → s.outgoing = 0 → s.completed.length = 1
  startError : ∀ e, s.recorded = some e → ∀ o ∈ s.completed, o = .error (some e)
  /-- The first store decides. -/
  winner : s.recorded = none → ∀ o ∈ s.completed, ∃ i x y,
    s.stores = [⟨i, x⟩, ⟨i.other, y⟩] ∧ Decides i x y s.threw o
  /-- A child that has not finished is counted, so its decrement does not underflow. -/
  pending : s.recorded = none → s.pending + s.finished = 2

/-- What a store leaves behind a winner. -/
structure Loses (d t : Data V E) : Prop where
  winner : t.winner = d.winner
  winnerKind : t.winnerKind = d.winnerKind
  winnerError : t.winnerError = d.winnerError
  startError : t.startError = d.startError

theorem loses_store {d : Data V E} (hw : d.winner.isSome = true) (x : Store V E) :
    Loses d (d.store x).1 := by
  have hsel : ∀ i kind, d.selectWinner i kind = (d, false) := by
    intro i kind
    unfold Data.selectWinner
    rw [if_pos hw]
  obtain ⟨i, signal, throws⟩ := x
  cases signal with
  | result r =>
    cases throws <;> simp only [Data.store, Data.storeResult, hsel] <;> exact ⟨rfl, rfl, rfl, rfl⟩
  | stopped =>
    simp only [Data.store, Data.storeStopped, hsel]
    exact ⟨rfl, rfl, rfl, rfl⟩
  | error e =>
    simp only [Data.store, Data.storeError, hsel]
    exact ⟨rfl, rfl, rfl, rfl⟩

theorem result_store (d : Data V E) (x : Store V E) :
    (d.store x).1.result = (match kept x.2 with
      | some r => Function.update d.result x.1 (some r)
      | none => d.result) := by
  have hsel : ∀ i kind, (d.selectWinner i kind).1.result = d.result := by
    intro i kind
    unfold Data.selectWinner
    split <;> rfl
  obtain ⟨i, signal, throws⟩ := x
  cases signal with
  | result r =>
    cases throws with
    | none => simp [Data.store, Data.storeResult, kept, hsel]
    | some e =>
      simp only [Data.store, Data.storeResult, kept]
      split_ifs <;> exact hsel i .result
  | stopped => exact hsel i .stopped
  | error e =>
    simp only [Data.store, Data.storeError, kept]
    split_ifs <;> exact hsel i .error

/-- The aggregate has the status of the result that it is made from. -/
theorem resultAction_eq (r : IoResult (V i)) (payload : Payload V) :
    ∃ a, (Data.resultAction r.status r.error payload : Outcome (Payload V) E) = .value a ∧
      a.status = r.status ∧ a.error = (if r.status = .error then r.error else {}) ∧
      a.values = payload := by
  unfold Data.resultAction
  cases hs : r.status with
  | error => exact ⟨_, rfl, by simp, by simp, rfl⟩
  | eof => exact ⟨_, rfl, by simp, by simp, rfl⟩
  | value => exact ⟨_, rfl, by simp, by simp, rfl⟩

theorem decides {i : Child} (x : Signal (V i) E × Option E) (y : Signal (V i.other) E × Option E)
    (threw : Option E) : Decides i x y threw
      (Data.outcome (Data.store (Data.store ({} : Data V E) ⟨i, x⟩).1 ⟨i.other, y⟩).1 threw) := by
  obtain ⟨signal, throws⟩ := x
  cases signal with
  | stopped =>
    have hl := loses_store (d := (Data.store ({} : Data V E) ⟨i, .stopped, throws⟩).1) rfl
      ⟨i.other, y⟩
    generalize (Data.store (Data.store ({} : Data V E) ⟨i, .stopped, throws⟩).1 ⟨i.other, y⟩).1 = d
      at hl
    show d.outcome threw = .stopped
    simp [Data.outcome, hl.startError, hl.winnerKind, hl.winner, Data.store, Data.storeStopped,
      Data.selectWinner]
  | error e =>
    have hl := loses_store (d := (Data.store ({} : Data V E) ⟨i, .error e, throws⟩).1) rfl
      ⟨i.other, y⟩
    generalize (Data.store (Data.store ({} : Data V E) ⟨i, .error e, throws⟩).1 ⟨i.other, y⟩).1 = d
      at hl
    show d.outcome threw = .error (some e)
    simp [Data.outcome, hl.startError, hl.winnerKind, hl.winnerError, Data.store, Data.storeError,
      Data.selectWinner]
  | result r =>
    cases throws with
    | some e =>
      have hl := loses_store (d := (Data.store ({} : Data V E) ⟨i, .result r, some e⟩).1) rfl
        ⟨i.other, y⟩
      generalize (Data.store (Data.store ({} : Data V E) ⟨i, .result r, some e⟩).1
        ⟨i.other, y⟩).1 = d at hl
      show d.outcome threw = .error (some e)
      simp [Data.outcome, hl.startError, hl.winnerKind, hl.winnerError, Data.store,
        Data.storeResult, Data.selectWinner]
    | none =>
      have hl := loses_store (d := (Data.store ({} : Data V E) ⟨i, .result r, none⟩).1) rfl
        ⟨i.other, y⟩
      have hr := result_store (Data.store ({} : Data V E) ⟨i, .result r, none⟩).1 ⟨i.other, y⟩
      generalize (Data.store (Data.store ({} : Data V E) ⟨i, .result r, none⟩).1
        ⟨i.other, y⟩).1 = d at hl hr
      have hfirst : d.result i = some r := by
        rw [hr]
        cases kept y <;>
          simp [Data.store, Data.storeResult, Data.selectWinner, (Child.other_ne i).symm]
      have hsecond : d.result i.other = kept y := by
        rw [hr]
        cases kept y <;>
          simp [Data.store, Data.storeResult, Data.selectWinner, Child.other_ne i]
      cases threw with
      | some e =>
        show d.outcome (some e) = .error (some e)
        simp [Data.outcome, hl.startError, hl.winnerKind, hl.winner, Data.store, Data.storeResult,
          Data.selectWinner]
      | none =>
        have ho : d.outcome none =
            Data.resultAction r.status r.error { result := d.result, winner := i } := by
          simp [Data.outcome, hl.startError, hl.winnerKind, hl.winner, Data.store, Data.storeResult,
            Data.selectWinner, hfirst]
        obtain ⟨a, ha, hstatus, herror, hvalues⟩ :=
          resultAction_eq (E := E) r ({ result := d.result, winner := i } : Payload V)
        refine ⟨a, ho.trans ha, hstatus, herror, ?_, ?_, ?_⟩
        · rw [hvalues]
        · rw [hvalues]
          exact hfirst
        · rw [hvalues]
          exact hsecond

variable {s : State V E (Payload V) (Data V E)}

/-- `when_any_results` picks the child that stored first, and completes the receiver once. -/
theorem when_any_results_picks_winner (h : Reachable (step (policy V E)) (Initial (policy V E)) s) :
    PicksWinner s := by
  have hi := reachable_inv h
  constructor
  · exact hi.length_le_one
  · exact hi.length_eq_one
  · intro e hr o ho
    obtain ⟨d, rfl⟩ := hi.outcome_of_start hr ho
    rfl
  · intro hr o ho
    obtain ⟨i, x, y, hstores, rfl⟩ := hi.outcome_of_stores hr ho
    exact ⟨i, x, y, hstores, decides x y s.threw⟩
  · exact hi.counted

/-- The second child wins while the first one is about to store, and storing the result of the
first one throws. -/
theorem when_any_results_picks_winner_second :
    ∃ s : State (fun _ => ℕ) ℕ (Payload fun _ => ℕ) (Data (fun _ => ℕ) ℕ),
      Reachable (step (policy _ ℕ)) (Initial (policy _ ℕ)) s ∧
      s.stores.map Sigma.fst = [.second, .first] ∧ s.completed.length = 1 ∧ PicksWinner s := by
  obtain ⟨s, hs, h1, h2⟩ : ∃ s : State (fun _ => ℕ) ℕ (Payload fun _ => ℕ) (Data (fun _ => ℕ) ℕ),
      run (step (policy _ ℕ)) { data := (policy _ ℕ).init }
        [.store ⟨.second, .result (.success 4), none⟩, .store ⟨.first, .result (.success 3), some 9⟩,
          .store ⟨.first, .stopped, none⟩, .advance .first none, .advance .second none,
          .advance .second none, .advance .first none, .advance .second none] = some s ∧
      s.stores.map Sigma.fst = [.second, .first] ∧ s.completed.length = 1 := ⟨_, rfl, rfl, rfl⟩
  have hr : Reachable (step (policy _ ℕ)) (Initial (policy _ ℕ)) s := ⟨_, rfl, _, hs⟩
  exact ⟨s, hr, h1, h2, when_any_results_picks_winner hr⟩

/-- The loser delivers a result that cannot be stored: the aggregate of the winner lacks it. And
moving the results into the aggregate throws: the winner's result gives an error. -/
theorem when_any_results_loses_result :
    (∃ s : State (fun _ => ℕ) ℕ (Payload fun _ => ℕ) (Data (fun _ => ℕ) ℕ),
      run (step (policy _ ℕ)) { data := (policy _ ℕ).init }
        [.store ⟨.first, .result (.success 3), none⟩, .store ⟨.second, .result (.success 4), some 9⟩,
          .advance .first none, .advance .first none, .advance .second none,
          .advance .first none, .advance .second none] = some s ∧
      ∃ a, s.completed = [.value a] ∧ a.values.winner = .first ∧ a.values.result .second = none) ∧
    ∃ s : State (fun _ => ℕ) ℕ (Payload fun _ => ℕ) (Data (fun _ => ℕ) ℕ),
      run (step (policy _ ℕ)) { data := (policy _ ℕ).init }
        [.store ⟨.first, .result (.success 3), none⟩, .store ⟨.second, .stopped, none⟩,
          .advance .first none, .advance .first none, .advance .second (some 9),
          .advance .second none] = some s ∧
      s.completed = [.error (some 9)] :=
  ⟨⟨_, rfl, _, rfl, rfl, rfl⟩, _, rfl, rfl⟩

end CCForge.IoCombinators.WhenAny
