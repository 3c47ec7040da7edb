import CCForge.IoCombinators.Shared

/-!
# What the shared state of two children does under any policy

The stores happen one after the other, so what is stored is a fold over them, and the
receiver gets what the policy makes of both stores, or of the start error.
-/

namespace CCForge.IoCombinators

variable {V : Child → Type} {E A D : Type}

namespace Call

variable {O : Type}

def begun : Call O → Bool
  | .idle => false
  | _ => true

/-- The section of `finish_child` is behind it. -/
def finished : Call O → ℕ
  | .delivering _ | .returned => 1
  | _ => 0

def action : Call O → Option O
  | .delivering action => action
  | _ => none

def isReturned : Call O → Bool
  | .returned => true
  | _ => false

end Call

def StartCall.action {O : Type} : StartCall O → Option O
  | .stopping action | .delivering action => action
  | _ => none

def held {O : Type} (action : Option O) : ℕ := if action.isSome then 1 else 0

@[simp] theorem held_none {O : Type} : held (none : Option O) = 0 := rfl

@[simp] theorem held_some {O : Type} (o : O) : held (some o) = 1 := rfl

/-- What the stores leave. -/
def Policy.stored (p : Policy V E A D) (stores : List (Store V E)) : D :=
  stores.foldl (fun d x => (p.store d x).1) p.init

/-- What the stores and a start error leave. -/
def Policy.left (p : Policy V E A D) (stores : List (Store V E)) : Option E → D
  | none => p.stored stores
  | some e => p.startError (p.stored stores) e

namespace State

/-- The actions that no call has delivered yet. -/
def outgoing (s : State V E A D) : ℕ :=
  held (s.call .first).action + held (s.call .second).action + held s.startCall.action

def finished (s : State V E A D) : ℕ := (s.call .first).finished + (s.call .second).finished

end State

structure Inv (p : Policy V E A D) (s : State V E A D) : Prop where
  sent : s.outgoing + s.completed.length = if s.completionSent then 1 else 0
  begun : s.recorded = none → ∀ i, s.done i = (s.call i).begun
  counted : s.recorded = none → s.pending + s.finished = 2
  complete : s.recorded = none → (s.completionSent = true ↔ s.pending = 0)
  recorded : s.recorded ≠ none → s.completionSent = true ∧ s.threw = none ∧ ∀ i, s.done i = true
  bounded : s.pending ≤ 2
  stored : ∀ i, i ∈ s.stores.map Sigma.fst ↔ (s.call i).begun = true
  nodup : (s.stores.map Sigma.fst).Nodup
  data : s.data = p.left s.stores s.recorded
  calls : ∀ i o, (s.call i).action = some o → o = p.outcome s.data s.threw
  starts : ∀ o, s.startCall.action = some o → o = p.outcome s.data s.threw
  completed : ∀ o ∈ s.completed, o = p.outcome s.data s.threw

variable {p : Policy V E A D} {s t : State V E A D}

theorem inv_initial (h : Initial p s) : Inv p s := by
  cases h
  constructor <;> simp [State.outgoing, State.finished, Call.action, StartCall.action, Call.finished,
    Call.begun, Policy.left, Policy.stored]

theorem Inv.not_sent_of_finishing (h : Inv p s) {i : Child} (hr : s.recorded = none)
    (hc : (s.call i).finished = 0) : 0 < s.pending ∧ s.completionSent = false := by
  have hcount := h.counted hr
  have hle : ∀ j, (s.call j).finished ≤ 1 := by
    intro j
    cases s.call j <;> simp [Call.finished]
  have hfirst := hle .first
  have hsecond := hle .second
  have hpos : 0 < s.pending := by
    unfold State.finished at hcount
    cases i <;> omega
  refine ⟨hpos, ?_⟩
  cases hs : s.completionSent with
  | false => rfl
  | true =>
    have hz := (h.complete hr).mp hs
    omega

theorem outgoing_setCall (s : State V E A D) (i : Child) (call : Call (Outcome A E)) :
    (s.setCall i call).outgoing + held (s.call i).action = s.outgoing + held call.action := by
  cases i <;> simp [State.outgoing] <;> omega

theorem finished_setCall (s : State V E A D) (i : Child) (call : Call (Outcome A E)) :
    (s.setCall i call).finished + (s.call i).finished = s.finished + call.finished := by
  cases i <;> simp [State.finished] <;> omega

theorem forall_setCall {P : Child → Call (Outcome A E) → Prop} {i : Child}
    {call : Call (Outcome A E)} (h : ∀ j, P j (s.call j)) (hi : P i call) :
    ∀ j, P j (Function.update s.call i call j) := by
  intro j
  by_cases hj : j = i
  · subst hj
    simpa using hi
  · simpa [Function.update_of_ne hj] using h j

theorem held_eq_zero {O : Type} {action : Option O} (h : held action = 0) : action = none := by
  cases action with
  | none => rfl
  | some o => cases h

/-- Before the completion is sent there is no action. -/
theorem Inv.unsent (h : Inv p s) (hs : s.completionSent = false) :
    (∀ i, (s.call i).action = none) ∧ s.startCall.action = none ∧ s.completed = [] := by
  have hsent := h.sent
  rw [hs] at hsent
  simp only [State.outgoing, Bool.false_eq_true, if_false] at hsent
  refine ⟨?_, held_eq_zero (by omega), List.length_eq_zero_iff.mp (by omega)⟩
  intro i
  cases i with
  | first => exact held_eq_zero (by omega)
  | second => exact held_eq_zero (by omega)

theorem inv_store (h : Inv p s) (x : Store V E) : Inv p (s.store p x) := by
  unfold State.store
  split_ifs with hd
  · exact h
  · have hr : s.recorded = none := by
      by_contra hr
      exact hd ((h.recorded hr).2.2 x.1)
    have hb : (s.call x.1).begun = false := by
      rw [← h.begun hr]
      simpa using hd
    have hidle : s.call x.1 = .idle := by
      revert hb
      cases s.call x.1 <;> simp [Call.begun]
    have hunsent := (h.not_sent_of_finishing hr (by rw [hidle]; rfl)).2
    obtain ⟨hcalls, hstarts, hcompleted⟩ := h.unsent hunsent
    have hdata := h.data
    rw [hr] at hdata
    have hnotin : x.1 ∉ s.stores.map Sigma.fst := by
      rw [h.stored, hb]
      simp
    obtain ⟨call, hcall, hnew⟩ : ∃ call : Call (Outcome A E),
        (if (p.store s.data x).2 then Call.stopping else .finishing) = call ∧
          call.begun = true ∧ call.finished = 0 ∧ call.action = none := by
      split_ifs <;> exact ⟨_, rfl, rfl, rfl, rfl⟩
    dsimp only
    rw [hcall]
    have hout := outgoing_setCall s x.1 call
    have hfin := finished_setCall s x.1 call
    rw [hidle, hnew.2.2] at hout
    rw [hidle, hnew.2.1] at hfin
    constructor
    · have hsent := h.sent
      show (s.setCall x.1 call).outgoing + _ = _
      rw [show (s.setCall x.1 call).outgoing = s.outgoing by simpa [Call.action] using hout]
      exact hsent
    · intro _ j
      by_cases hj : j = x.1
      · subst hj
        simp [hnew.1]
      · simpa [Function.update_of_ne hj] using h.begun hr j
    · intro _
      have hcount := h.counted hr
      show s.pending + (s.setCall x.1 call).finished = 2
      rw [show (s.setCall x.1 call).finished = s.finished by simpa [Call.finished] using hfin]
      exact hcount
    · exact h.complete
    · exact fun hne => absurd hr hne
    · exact h.bounded
    · intro j
      by_cases hj : j = x.1
      · subst hj
        simp [hnew.1]
      · have hs := h.stored j
        simpa [Function.update_of_ne hj, hj] using hs
    · rw [List.map_append, List.nodup_append]
      refine ⟨h.nodup, by simp, ?_⟩
      intro a ha b hb hab
      rw [List.map_singleton, List.mem_singleton] at hb
      exact hnotin (by rw [← hb, ← hab]; exact ha)
    · show (p.store s.data x).1 = p.left (s.stores ++ [x]) s.recorded
      rw [hr, hdata]
      simp [Policy.left, Policy.stored]
    · intro j o ho
      have hnone := forall_setCall (P := fun _ c => c.action = none) (i := x.1) hcalls hnew.2.2 j
      rw [show Call.action (Function.update s.call x.1 call j) = some o from ho] at hnone
      cases hnone
    · intro o ho
      rw [show s.startCall.action = some o from ho] at hstarts
      cases hstarts
    · intro o ho
      change o ∈ s.completed at ho
      rw [hcompleted] at ho
      cases ho

/-- A call that has begun moves on, and keeps its action. -/
theorem inv_moves (h : Inv p s) {i : Child} {call : Call (Outcome A E)} {stopRequested : Bool}
    (hb : (s.call i).begun = true) (hnew : call.begun = true)
    (hf : call.finished = (s.call i).finished) (ha : call.action = (s.call i).action) :
    Inv p { s.setCall i call with stopRequested := stopRequested } := by
  have hout : (s.setCall i call).outgoing = s.outgoing := by
    have hout := outgoing_setCall s i call
    rw [ha] at hout
    omega
  have hfin : (s.setCall i call).finished = s.finished := by
    have hfin := finished_setCall s i call
    rw [hf] at hfin
    omega
  exact { h with
    sent := by
      show (s.setCall i call).outgoing + _ = _
      rw [hout]
      exact h.sent
    begun := fun hr => forall_setCall (P := fun j c => s.done j = c.begun) (h.begun hr) (by
      rw [h.begun hr, hb, hnew])
    counted := fun hr => by
      show s.pending + (s.setCall i call).finished = 2
      rw [hfin]
      exact h.counted hr
    stored := forall_setCall (P := fun j c => j ∈ s.stores.map Sigma.fst ↔ c.begun = true) h.stored
      (by rw [h.stored, hb, hnew])
    calls := forall_setCall (P := fun _ c => ∀ o, c.action = some o → o = p.outcome s.data s.threw)
      h.calls (by rw [ha]; exact h.calls i) }

/-- The call that has the completion sent takes the action. -/
theorem inv_finishChild (h : Inv p s) {i : Child} (hc : s.call i = .finishing) (throws : Option E) :
    Inv p (s.finishChild p i throws) := by
  have hb : (s.call i).begun = true := by rw [hc]; rfl
  have hf : (s.call i).finished = 0 := by rw [hc]; rfl
  have ha : (s.call i).action = none := by rw [hc]; rfl
  have hout : ∀ action, (s.setCall i (.delivering action)).outgoing = s.outgoing + held action := by
    intro action
    have hout := outgoing_setCall s i (.delivering action)
    rw [ha] at hout
    exact hout
  have hfin : ∀ action, (s.setCall i (.delivering action)).finished = s.finished + 1 := by
    intro action
    have hfin := finished_setCall s i (.delivering action)
    rw [hf] at hfin
    exact hfin
  have hbegun : ∀ action, s.recorded = none → ∀ j,
      s.done j = (Function.update s.call i (.delivering action) j).begun := fun action hr =>
    forall_setCall (P := fun j c => s.done j = c.begun) (h.begun hr) (by rw [h.begun hr, hb]; rfl)
  have hstored : ∀ action j, j ∈ s.stores.map Sigma.fst ↔
      (Function.update s.call i (.delivering action) j).begun = true := fun action =>
    forall_setCall (P := fun j c => j ∈ s.stores.map Sigma.fst ↔ c.begun = true) h.stored
      (by rw [h.stored, hb]; rfl)
  -- a call that is not the last one keeps all but the counter
  have hkeep : ∀ pending : ℕ, pending ≤ 2 →
      (s.recorded = none → pending + s.finished + 1 = 2 ∧ pending ≠ 0) →
      Inv p { s.setCall i (.delivering none) with pending := pending } := by
    intro pending hle hcount
    exact { h with
      sent := by
        show (s.setCall i (.delivering none)).outgoing + _ = _
        rw [hout]
        exact h.sent
      begun := hbegun none
      counted := fun hr => by
        have hcr := (hcount hr).1
        show pending + (s.setCall i (.delivering none)).finished = 2
        rw [hfin]
        omega
      complete := fun hr => by
        have hsent := (h.not_sent_of_finishing hr hf).2
        show s.completionSent = true ↔ pending = 0
        simp [hsent, (hcount hr).2]
      bounded := hle
      stored := hstored none
      calls := forall_setCall (P := fun _ c => ∀ o, c.action = some o → o = p.outcome s.data s.threw)
        h.calls nofun }
  unfold State.finishChild State.maybeComplete
  have hbounded := h.bounded
  generalize hn : (if s.pending ≠ 0 then s.pending - 1 else s.pending) = n
  have hle : n ≤ 2 := by split_ifs at hn <;> omega
  by_cases hr : s.recorded = none
  · obtain ⟨hpos, hunsent⟩ := h.not_sent_of_finishing hr hf
    have hcount := h.counted hr
    rw [if_pos (by omega)] at hn
    -- the last call of the two sends the completion, which nobody has sent before
    by_cases hz : n = 0
    · rw [if_neg (by simp [hunsent, hz])]
      obtain ⟨hcalls, hstarts, hcompleted⟩ := h.unsent hunsent
      exact { h with
        sent := by
          have hs := h.sent
          rw [hunsent, hcompleted] at hs
          show (s.setCall i (.delivering (some (p.outcome s.data throws)))).outgoing +
            s.completed.length = 1
          rw [hout, hcompleted]
          simpa using hs
        begun := hbegun _
        counted := fun _ => by
          show n + (s.setCall i (.delivering (some (p.outcome s.data throws)))).finished = 2
          rw [hfin]
          omega
        complete := fun _ => by
          show true = true ↔ n = 0
          simp [hz]
        recorded := fun hne => absurd hr hne
        bounded := hle
        stored := hstored _
        calls := forall_setCall
          (P := fun _ c => ∀ o, c.action = some o → o = p.outcome s.data throws)
          (fun j o ho => by
            rw [hcalls j] at ho
            cases ho)
          (fun o ho => by
            cases ho
            rfl)
        starts := fun o ho => by
          rw [show s.startCall.action = some o from ho] at hstarts
          cases hstarts
        completed := fun o ho => by
          change o ∈ s.completed at ho
          rw [hcompleted] at ho
          cases ho }
    · rw [if_pos (.inr hz)]
      refine hkeep n hle fun _ => ⟨?_, hz⟩
      omega
  · rw [if_pos (.inl (h.recorded hr).1)]
    exact hkeep n hle fun hn => absurd hn hr

/-- A call delivers its action. -/
theorem inv_deliver (h : Inv p s) {i : Child} {action : Option (Outcome A E)}
    (hc : s.call i = .delivering action) : Inv p ((s.setCall i .returned).deliver action) := by
  have hb : (s.call i).begun = true := by rw [hc]; rfl
  have hout : (s.setCall i .returned).outgoing + held action = s.outgoing := by
    have hout := outgoing_setCall s i .returned
    rw [hc] at hout
    exact hout
  have hfin : (s.setCall i .returned).finished = s.finished := by
    have hfin := finished_setCall s i .returned
    rw [hc] at hfin
    exact Nat.add_right_cancel hfin
  have hbegun : s.recorded = none → ∀ j, s.done j = (Function.update s.call i .returned j).begun :=
    fun hr => forall_setCall (P := fun j c => s.done j = c.begun) (h.begun hr)
      (by rw [h.begun hr, hb]; rfl)
  have hcounted : s.recorded = none → s.pending + (s.setCall i .returned).finished = 2 := by
    intro hr
    rw [hfin]
    exact h.counted hr
  have hstored : ∀ j, j ∈ s.stores.map Sigma.fst ↔
      (Function.update s.call i .returned j).begun = true :=
    forall_setCall (P := fun j c => j ∈ s.stores.map Sigma.fst ↔ c.begun = true) h.stored
      (by rw [h.stored, hb]; rfl)
  have hcalls : ∀ j o, (Function.update s.call i .returned j).action = some o →
      o = p.outcome s.data s.threw :=
    forall_setCall (P := fun _ c => ∀ o, c.action = some o → o = p.outcome s.data s.threw)
      h.calls nofun
  have hsent := h.sent
  cases action with
  | none =>
    exact { h with
      sent := by
        show (s.setCall i .returned).outgoing + s.completed.length = _
        rw [show (s.setCall i .returned).outgoing = s.outgoing from hout]
        exact hsent
      begun := hbegun
      counted := hcounted
      stored := hstored
      calls := hcalls }
  | some outcome =>
    exact { h with
      sent := by
        show (s.setCall i .returned).outgoing + (s.completed ++ [outcome]).length = _
        rw [List.length_append, List.length_singleton]
        rw [held_some] at hout
        show _ = if s.completionSent then 1 else 0
        omega
      begun := hbegun
      counted := hcounted
      stored := hstored
      calls := hcalls
      completed := fun o ho => by
        rcases List.mem_append.mp ho with ho | ho
        · exact h.completed o ho
        · rw [List.mem_singleton.mp ho]
          exact h.calls i outcome (by rw [hc]; rfl) }

theorem inv_advance (h : Inv p s) {i : Child} {throws : Option E} (ht : s.advance p i throws = some t) :
    Inv p t := by
  unfold State.advance at ht
  split at ht
  · cases ht
  · cases ht
  · next hc =>
    cases ht
    exact inv_moves h (by rw [hc]; rfl) rfl (by rw [hc]; rfl) (by rw [hc]; rfl)
  · next hc =>
    cases ht
    exact inv_finishChild h hc throws
  · next action hc =>
    cases ht
    exact inv_deliver h hc

theorem inv_storeStartError (h : Inv p s) (hc : s.startCall.isIdle = true) (e : E) :
    Inv p (s.storeStartError p e) := by
  have hidle : s.startCall = .idle := by
    revert hc
    cases s.startCall <;> simp [StartCall.isIdle]
  have hsent := h.sent
  unfold State.outgoing at hsent
  rw [hidle] at hsent
  unfold State.storeStartError
  split_ifs with hs
  · exact { h with
      sent := hsent
      starts := nofun }
  · have hunsent : s.completionSent = false := by simpa using hs
    have hr : s.recorded = none := by
      by_contra hr
      exact hs (h.recorded hr).1
    obtain ⟨hcalls, -, hcompleted⟩ := h.unsent hunsent
    have hdata := h.data
    rw [hr] at hdata
    unfold State.maybeComplete
    rw [if_neg (by simp [hunsent])]
    exact { h with
      sent := by
        simp [State.outgoing, hcalls, StartCall.action, hcompleted]
      begun := nofun
      counted := nofun
      complete := nofun
      recorded := fun _ => ⟨rfl, rfl, fun _ => rfl⟩
      bounded := Nat.zero_le _
      data := by
        show p.startError s.data e = p.startError (p.stored s.stores) e
        rw [hdata]
        rfl
      calls := fun i o ho => by
        rw [hcalls i] at ho
        cases ho
      starts := fun o ho => by
        cases ho
        rfl
      completed := fun o ho => by
        change o ∈ s.completed at ho
        rw [hcompleted] at ho
        cases ho }

theorem inv_advanceStart (h : Inv p s) (ht : s.advanceStart = some t) : Inv p t := by
  have hsent := h.sent
  have hstarts := h.starts
  unfold State.outgoing at hsent
  unfold State.advanceStart at ht
  split at ht
  · cases ht
  · cases ht
  · next action hc =>
    rw [hc] at hsent hstarts
    cases ht
    exact { h with
      sent := hsent
      starts := hstarts }
  · next action hc =>
    rw [hc] at hsent hstarts
    cases ht
    cases action with
    | none =>
      exact { h with
        sent := hsent
        starts := nofun }
    | some outcome =>
      exact { h with
        sent := by
          show held (s.call .first).action + held (s.call .second).action + 0 +
            (s.completed ++ [outcome]).length = if s.completionSent then 1 else 0
          rw [List.length_append, List.length_singleton]
          simp only [StartCall.action, held_some] at hsent
          omega
        starts := nofun
        completed := fun o ho => by
          rcases List.mem_append.mp ho with ho | ho
          · exact h.completed o ho
          · rw [List.mem_singleton.mp ho]
            exact hstarts outcome rfl }

theorem inv_step {l : Label V E} (h : Inv p s) (ht : step p s l = some t) : Inv p t := by
  cases l with
  | store x =>
    cases ht
    exact inv_store h x
  | advance i throws => exact inv_advance h ht
  | startError e =>
    simp only [step] at ht
    split_ifs at ht with hc
    cases ht
    exact inv_storeStartError h hc e
  | advanceStart => exact inv_advanceStart h ht

theorem reachable_inv (h : Reachable (step p) (Initial p) s) : Inv p s :=
  h.preserves (fun _ hs => inv_initial hs) fun _ _ _ hi hs => inv_step hi hs

/-! ## What the receiver gets -/

theorem Child.eq_or_other (i j : Child) : j = i ∨ j = i.other := by
  cases i <;> cases j <;> simp [Child.other]

theorem Child.other_ne (i : Child) : i.other ≠ i := by
  cases i <;> nofun

/-- Both children have stored, one after the other. -/
theorem two_stores {stores : List (Store V E)} (hn : (stores.map Sigma.fst).Nodup)
    (hall : ∀ i, i ∈ stores.map Sigma.fst) :
    ∃ i x y, stores = [⟨i, x⟩, ⟨i.other, y⟩] := by
  match stores with
  | [] => simpa using hall .first
  | [a] =>
    have hother := hall a.1.other
    rw [List.map_singleton, List.mem_singleton] at hother
    exact absurd hother (Child.other_ne a.1)
  | ⟨i, x⟩ :: ⟨j, y⟩ :: rest =>
    rw [List.map_cons, List.map_cons, List.nodup_cons, List.nodup_cons] at hn
    obtain ⟨hi, hj, -⟩ := hn
    have hji : j = i.other := by
      rcases Child.eq_or_other i j with h | h
      · simp [h] at hi
      · exact h
    subst hji
    cases rest with
    | nil => exact ⟨i, x, y, rfl⟩
    | cons z rest =>
      rcases Child.eq_or_other i z.1 with h | h
      · simp [h] at hi
      · simp [h] at hj

/-- The calls of both children have returned, or a start error was recorded. -/
def State.over (s : State V E A D) : Prop :=
  (∀ i, (s.call i).isReturned = true) ∨ s.recorded.isSome = true

theorem Inv.length_le_one (h : Inv p s) : s.completed.length ≤ 1 := by
  have hsent := h.sent
  split_ifs at hsent <;> omega

/-- The receiver is completed when everything is over and delivered. -/
theorem Inv.length_eq_one (h : Inv p s) (ho : s.over) (hd : s.outgoing = 0) :
    s.completed.length = 1 := by
  have hsent := h.sent
  have hs : s.completionSent = true := by
    rcases ho with hret | hrec
    · by_cases hr : s.recorded = none
      · have hfinished : ∀ i, (s.call i).finished = 1 := by
          intro i
          have hi := hret i
          revert hi
          cases s.call i <;> simp [Call.isReturned, Call.finished]
        have hcount := h.counted hr
        unfold State.finished at hcount
        rw [hfinished, hfinished] at hcount
        exact (h.complete hr).mpr (by omega)
      · exact (h.recorded hr).1
    · exact (h.recorded (by rw [Option.isSome_iff_ne_none] at hrec; exact hrec)).1
  rw [hs, hd] at hsent
  simpa using hsent

/-- `pending_` counts the children that have not finished. -/
theorem Inv.pending_pos (h : Inv p s) {i : Child} (hr : s.recorded = none)
    (hc : (s.call i).finished = 0) : 0 < s.pending :=
  (h.not_sent_of_finishing hr hc).1

/-- Without a start error the receiver gets what the policy makes of both stores. -/
theorem Inv.outcome_of_stores (h : Inv p s) (hr : s.recorded = none) {o : Outcome A E}
    (ho : o ∈ s.completed) : ∃ i x y, s.stores = [⟨i, x⟩, ⟨i.other, y⟩] ∧
      o = p.outcome (p.store (p.store p.init ⟨i, x⟩).1 ⟨i.other, y⟩).1 s.threw := by
  have hsent := h.sent
  have hs : s.completionSent = true := by
    by_contra hs
    rw [(h.unsent (by simpa using hs)).2.2] at ho
    cases ho
  have hcount := h.counted hr
  rw [(h.complete hr).mp hs] at hcount
  have hbegun : ∀ i, (s.call i).begun = true := by
    have hone : ∀ i, (s.call i).finished ≤ 1 ∧ ((s.call i).begun = false → (s.call i).finished = 0) := by
      intro i
      cases s.call i <;> simp [Call.finished, Call.begun]
    have hfirst := hone .first
    have hsecond := hone .second
    unfold State.finished at hcount
    intro i
    by_contra hi
    have hi : (s.call i).begun = false := by simpa using hi
    cases i with
    | first =>
      have hz := hfirst.2 hi
      omega
    | second =>
      have hz := hsecond.2 hi
      omega
  obtain ⟨i, x, y, hstores⟩ := two_stores h.nodup fun i => (h.stored i).mpr (hbegun i)
  refine ⟨i, x, y, hstores, ?_⟩
  rw [h.completed o ho, h.data, hr, hstores]
  rfl

/-- With a start error the receiver gets what the policy makes of it. -/
theorem Inv.outcome_of_start (h : Inv p s) {e : E} (hr : s.recorded = some e) {o : Outcome A E}
    (ho : o ∈ s.completed) : ∃ d, o = p.outcome (p.startError d e) none := by
  refine ⟨p.stored s.stores, ?_⟩
  rw [h.completed o ho, h.data, hr, (h.recorded (by simp [hr])).2.1]
  rfl

end CCForge.IoCombinators
