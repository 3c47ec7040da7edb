import CCForge.Lib.Census
import CCForge.WhenAll.Model

/-!
# The invariant of when_all

`Counts` ties the number of pending children and the deliveries to the stages of the
children. `Contents` says what the flag, the result and the stop source have to do
with the completions so far: the first failing child is on its way to store its error
or has stored it, and nothing overwrites that.
-/

namespace CCForge.WhenAll

variable {n : ℕ} {V E : Type} {s s' : State n V E} {i j : Fin n}

/-! ## Counting -/

namespace Stage

/-- The child has still to decrement. -/
def owes : Stage V E → ℕ
  | .delivering | .sending | .done => 0
  | _ => 1

def delivers : Stage V E → ℕ
  | .delivering | .sending => 1
  | _ => 0

/-- The child has decremented or is about to. -/
def settled : Stage V E → Bool
  | .finishing | .delivering | .sending | .done => true
  | _ => false

end Stage

structure Counts (s : State n V E) : Prop where
  pending : s.pending = total Stage.owes s.stage
  deliverer : total Stage.delivers s.stage + s.delivered.length = if s.pending = 0 then 1 else 0

theorem Counts.pending_pos (h : Counts s) (hi : (s.stage i).owes = 1) : 0 < s.pending := by
  rw [h.pending]
  by_contra hz
  have hall := Finset.sum_eq_zero_iff.mp (Nat.eq_zero_of_not_pos hz) i (Finset.mem_univ i)
  rw [hi] at hall
  cases hall

theorem Counts.of_pending (h : Counts s) (hz : s.pending = 0) (i : Fin n) :
    (s.stage i).owes = 0 := by
  rw [h.pending] at hz
  exact Finset.sum_eq_zero_iff.mp hz i (Finset.mem_univ i)

/-- A step that neither decrements nor delivers. -/
theorem Counts.setStage {x : Stage V E} (h : Counts s) (hst : s'.stage = Function.update s.stage i x)
    (hp : s'.pending = s.pending) (hd : s'.delivered = s.delivered)
    (ho : x.owes = (s.stage i).owes) (hde : x.delivers = (s.stage i).delivers) : Counts s' := by
  constructor
  · rw [hp, hst, total_update_same ho]
    exact h.pending
  · rw [hst, total_update_same hde, hp, hd]
    exact h.deliverer

theorem Counts.same (h : Counts s) (hst : s'.stage = s.stage) (hp : s'.pending = s.pending)
    (hd : s'.delivered = s.delivered) : Counts s' := by
  constructor
  · rw [hp, hst]
    exact h.pending
  · rw [hst, hp, hd]
    exact h.deliverer

theorem Counts.decrement (h : Counts s) (hi : s.stage i = .finishing) :
    Counts { s.setStage i (if s.pending = 1 then .delivering else .done) with
      pending := s.pending - 1 } := by
  have hpos := h.pending_pos (i := i) (by rw [hi]; rfl)
  have hone : (s.stage i).owes = 1 := by
    rw [hi]
    rfl
  have hdel := h.deliverer
  rw [if_neg (by omega)] at hdel
  constructor
  · have hto := total_update_to_zero (g := Stage.owes) (f := s.stage) (i := i)
      (x := if s.pending = 1 then .delivering else .done) (by split_ifs <;> rfl)
    have hp := h.pending
    simp only [State.setStage]
    omega
  · have hup := total_update_of_zero (g := Stage.delivers) (f := s.stage) (i := i)
      (x := if s.pending = 1 then .delivering else .done) (by rw [hi]; rfl)
    simp only [State.setStage]
    by_cases hp : s.pending = 1
    · rw [if_pos hp] at hup ⊢
      rw [if_pos (by omega), hup]
      simp only [Stage.delivers]
      omega
    · rw [if_neg hp] at hup ⊢
      rw [if_neg (by omega), hup]
      simp only [Stage.delivers]
      omega

theorem Counts.send (h : Counts s) (hi : s.stage i = .sending) (d : Delivery V E) :
    Counts { s.setStage i .done with delivered := s.delivered ++ [d] } := by
  constructor
  · show s.pending = total Stage.owes (Function.update s.stage i .done)
    rw [total_update_same (by rw [hi]; rfl)]
    exact h.pending
  · have hto := total_update_to_zero (g := Stage.delivers) (f := s.stage) (i := i) (x := .done) rfl
    have hone : (s.stage i).delivers = 1 := by
      rw [hi]
      rfl
    have hdel := h.deliverer
    show total Stage.delivers (Function.update s.stage i .done) + (s.delivered ++ [d]).length =
      if s.pending = 0 then 1 else 0
    rw [← hdel, List.length_append, List.length_singleton]
    omega

/-- After the delivery all children are done. -/
theorem Counts.done (h : Counts s) (hd : s.delivered ≠ []) (i : Fin n) : s.stage i = .done := by
  have hlen : 0 < s.delivered.length := List.length_pos_of_ne_nil hd
  have hdel := h.deliverer
  have hz : s.pending = 0 := by
    by_contra hz
    rw [if_neg hz] at hdel
    omega
  rw [if_pos hz] at hdel
  have hzero : total Stage.delivers s.stage = 0 := by omega
  have hi := Finset.sum_eq_zero_iff.mp hzero i (Finset.mem_univ i)
  have ho := h.of_pending hz i
  revert hi ho
  cases s.stage i <;> simp [Stage.owes, Stage.delivers]

/-! ## Contents -/

/-- What a completion has left behind. -/
def Accounted (s : State n V E) (i : Fin n) : Outcome V E → Prop
  | .value values => s.stored i = some values
  | .error error => (i, error) ∈ s.failures
  | .stopped => i ∈ s.stops ∧ s.stopRequested = true

/-- What the stage of a child says about it. -/
def Fits (s : State n V E) (i : Fin n) : Prop :=
  match s.stage i with
  | .idle | .running | .value _ => s.outcome i = none
  | .fail error => s.outcome i = some (.error error)
  | .failStop error | .failStore error =>
    s.outcome i = some (.error error) ∧ s.failures.head? = some (i, error)
  | .failRestore _ => ∃ error, s.outcome i = some (.error error) ∧
      s.failures.head? = some (i, error)
  | .stop => s.outcome i = some .stopped
  | .stopStore | .stopRequest => s.outcome i = some .stopped ∧ i ∈ s.stops
  | .finishing | .delivering | .sending | .done => ∃ o, s.outcome i = some o ∧ Accounted s i o

/-- The first failing child stores its error, or what the store threw. -/
def Winner (s : State n V E) (i : Fin n) (error : E) : Prop :=
  match s.stage i with
  | .failStop _ => s.storeThrew = none
  | .failStore _ => s.storeThrew = none ∧ s.stopRequested = true
  | .failRestore thrown => s.storeThrew = some thrown ∧ s.stopRequested = true
  | _ => s.result = .error (s.storeThrew.getD error) ∧ s.stopRequested = true

def dispositionOf (failures : List (Fin n × E)) (stops : List (Fin n)) : Disposition :=
  if failures ≠ [] then .error else if stops ≠ [] then .stopped else .started

structure Contents (s : State n V E) : Prop where
  fits : ∀ i, Fits s i
  unstarted : ∀ i : Fin n, s.started ≤ i → s.stage i = .idle
  failed : ∀ i error, (i, error) ∈ s.failures → s.outcome i = some (.error error)
  stopped : ∀ i ∈ s.stops, s.outcome i = some .stopped
  disp : s.disp = dispositionOf s.failures s.stops
  threw : s.failures = [] → s.storeThrew = none
  quiet : s.failures = [] → s.stops = [] → s.result = .monostate
  stopStored : s.failures = [] → s.stops ≠ [] → s.result = .stopped ∨
    (s.result = .monostate ∧ ∃ i, s.stage i = .stopStore)
  winner : ∀ i error, s.failures.head? = some (i, error) → Winner s i error
  asked : s.stopRequested = true →
    s.callbackInvoked = true ∨ s.installFailed = true ∨ s.failures ≠ [] ∨ s.stops ≠ []
  asks : s.callbackInvoked = true ∨ s.installFailed = true → s.stopRequested = true
  invoked : s.callbackInvoked = true → s.outerStopRequested = true

structure Inv (s : State n V E) : Prop where
  counts : Counts s
  contents : Contents s
  delivered : ∀ d ∈ s.delivered, d = s.delivery

/-- What is said of a child is kept while the others go on. -/
theorem Fits.mono (h : Fits s j) (hst : s'.stage j = s.stage j) (ho : s'.outcome j = s.outcome j)
    (hstored : s'.stored j = s.stored j) (hf : s.failures <+: s'.failures)
    (hs : s.stops ⊆ s'.stops) (hr : s.stopRequested = true → s'.stopRequested = true) :
    Fits s' j := by
  have hhead : ∀ p, s.failures.head? = some p → s'.failures.head? = some p := by
    intro p hp
    obtain ⟨rest, hrest⟩ := hf
    rw [← hrest, List.head?_append, hp]
    rfl
  have hacc : ∀ o, Accounted s j o → Accounted s' j o := by
    intro o hacc
    cases o with
    | value values => exact hstored.trans hacc
    | error error => exact hf.subset hacc
    | stopped => exact ⟨hs hacc.1, hr hacc.2⟩
  unfold Fits at h ⊢
  rw [hst, ho]
  revert h
  cases s.stage j with
  | idle => exact id
  | running => exact id
  | value values => exact id
  | fail error => exact id
  | failStop error => exact fun h => ⟨h.1, hhead _ h.2⟩
  | failStore error => exact fun h => ⟨h.1, hhead _ h.2⟩
  | failRestore thrown =>
    rintro ⟨error, h₁, h₂⟩
    exact ⟨error, h₁, hhead _ h₂⟩
  | stop => exact id
  | stopStore => exact fun h => ⟨h.1, hs h.2⟩
  | stopRequest => exact fun h => ⟨h.1, hs h.2⟩
  | finishing =>
    rintro ⟨o, h₁, h₂⟩
    exact ⟨o, h₁, hacc o h₂⟩
  | delivering =>
    rintro ⟨o, h₁, h₂⟩
    exact ⟨o, h₁, hacc o h₂⟩
  | sending =>
    rintro ⟨o, h₁, h₂⟩
    exact ⟨o, h₁, hacc o h₂⟩
  | done =>
    rintro ⟨o, h₁, h₂⟩
    exact ⟨o, h₁, hacc o h₂⟩

/-- A step of child `i`. -/
theorem fits_step {x : Stage V E} (h : ∀ j, Fits s j) (hst : s'.stage = Function.update s.stage i x)
    (ho : ∀ j, j ≠ i → s'.outcome j = s.outcome j) (hstored : ∀ j, j ≠ i → s'.stored j = s.stored j)
    (hf : s.failures <+: s'.failures) (hs : s.stops ⊆ s'.stops)
    (hr : s.stopRequested = true → s'.stopRequested = true) (hi : Fits s' i) (j : Fin n) :
    Fits s' j := by
  by_cases hj : j = i
  · rw [hj]
    exact hi
  · refine (h j).mono ?_ (ho j hj) (hstored j hj) hf hs hr
    rw [hst, Function.update_of_ne hj]

theorem unstarted_step {x : Stage V E} (h : ∀ j : Fin n, s.started ≤ j → s.stage j = .idle)
    (hst : s'.stage = Function.update s.stage i x) (hi : s.stage i ≠ .idle)
    (hstarted : s'.started = s.started) (j : Fin n) (hj : s'.started ≤ j) : s'.stage j = .idle := by
  rw [hstarted] at hj
  have hidle := h j hj
  have hne : j ≠ i := by
    rintro rfl
    exact hi hidle
  rw [hst, Function.update_of_ne hne]
  exact hidle

/-- A step of another child leaves the winner alone. -/
theorem Winner.other {x : Stage V E} {e : E} (h : Winner s j e) (hj : j ≠ i)
    (hst : s'.stage = Function.update s.stage i x) (ht : s'.storeThrew = s.storeThrew)
    (hres : ∀ e, s.result = .error e → s'.result = .error e)
    (hr : s.stopRequested = true → s'.stopRequested = true) : Winner s' j e := by
  unfold Winner at h ⊢
  rw [hst, Function.update_of_ne hj, ht]
  revert h
  cases s.stage j with
  | failStop error => exact id
  | failStore error => exact fun h => ⟨h.1, hr h.2⟩
  | failRestore error => exact fun h => ⟨h.1, hr h.2⟩
  | _ => exact fun h => ⟨hres _ h.1, hr h.2⟩

/-- A child whose completion is not yet accounted for has not failed and not stopped. -/
theorem Contents.fresh (h : Contents s) (hi : s.outcome i = none) :
    (∀ e, (i, e) ∉ s.failures) ∧ i ∉ s.stops := by
  constructor
  · intro e hm
    have ho := h.failed i e hm
    rw [hi] at ho
    cases ho
  · intro hm
    have ho := h.stopped i hm
    rw [hi] at ho
    cases ho

theorem stopStored_step {x : Stage V E} (hst : s'.stage = Function.update s.stage i x)
    (hi : s.stage i ≠ .stopStore)
    (h : s.result = .stopped ∨ (s.result = .monostate ∧ ∃ j, s.stage j = .stopStore))
    (hres : s'.result = s.result) :
    s'.result = .stopped ∨ (s'.result = .monostate ∧ ∃ j, s'.stage j = .stopStore) := by
  rw [hres]
  rcases h with h | ⟨h, j, hj⟩
  · exact .inl h
  · refine .inr ⟨h, j, ?_⟩
    have hne : j ≠ i := by
      rintro rfl
      exact hi hj
    rw [hst, Function.update_of_ne hne]
    exact hj

/-- What a step of child `i` leaves alone when it is not about a failure or a stop. -/
structure Untouched (s s' : State n V E) : Prop where
  disp : s'.disp = s.disp
  result : s'.result = s.result
  stopRequested : s'.stopRequested = s.stopRequested
  failures : s'.failures = s.failures
  stops : s'.stops = s.stops
  storeThrew : s'.storeThrew = s.storeThrew
  callbackInvoked : s'.callbackInvoked = s.callbackInvoked
  installFailed : s'.installFailed = s.installFailed
  outerStopRequested : s'.outerStopRequested = s.outerStopRequested

theorem Contents.moves {x : Stage V E} (h : Contents s) (hu : Untouched s s')
    (hst : s'.stage = Function.update s.stage i x) (hne : s.stage i ≠ .stopStore)
    (hun : ∀ j : Fin n, s'.started ≤ j → s'.stage j = .idle)
    (ho : ∀ j, j ≠ i → s'.outcome j = s.outcome j)
    (hoi : s.outcome i = none ∨ s'.outcome i = s.outcome i)
    (hstored : ∀ j, j ≠ i → s'.stored j = s.stored j) (hi : Fits s' i)
    (hwin : ∀ e, s.failures.head? = some (i, e) → Winner s' i e) : Contents s' := by
  obtain ⟨hdisp, hres, hreq, hfail, hstops, hthrew, hinv, hinst, houter⟩ := hu
  have hout : ∀ j o, s.outcome j = some o → s'.outcome j = some o := by
    intro j o hj
    by_cases hji : j = i
    · subst hji
      rcases hoi with hoi | hoi
      · rw [hoi] at hj
        cases hj
      · rw [hoi]
        exact hj
    · rw [ho j hji]
      exact hj
  refine ⟨?_, hun, ?_, ?_, ?_, ?_, ?_, ?_, ?_, ?_, ?_, ?_⟩
  · refine fits_step h.fits hst ho hstored ?_ ?_ ?_ hi
    · rw [hfail]
    · rw [hstops]
      exact fun _ hm => hm
    · rw [hreq]
      exact id
  · intro j e hm
    rw [hfail] at hm
    exact hout j _ (h.failed j e hm)
  · intro j hm
    rw [hstops] at hm
    exact hout j _ (h.stopped j hm)
  · rw [hdisp, hfail, hstops]
    exact h.disp
  · rw [hfail, hthrew]
    exact h.threw
  · rw [hfail, hstops, hres]
    exact h.quiet
  · rw [hfail, hstops]
    intro h₁ h₂
    exact stopStored_step hst hne (h.stopStored h₁ h₂) hres
  · intro j e hm
    rw [hfail] at hm
    by_cases hji : j = i
    · subst hji
      exact hwin e hm
    · refine (h.winner j e hm).other hji hst hthrew ?_ ?_
      · rw [hres]
        exact fun _ he => he
      · rw [hreq]
        exact id
  · rw [hreq, hinv, hinst, hfail, hstops]
    exact h.asked
  · rw [hreq, hinv, hinst]
    exact h.asks
  · rw [hinv, houter]
    exact h.invoked

end CCForge.WhenAll
