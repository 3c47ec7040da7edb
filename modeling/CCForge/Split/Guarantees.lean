import CCForge.Lib.Census
import CCForge.Split.Steps

/-!
# What split guarantees

The invariant holds in every reachable state, for any number of subscribers that are
connected, started and destroyed at any time, any result of the source and any
registration that throws.
-/

namespace CCForge.Split

variable {V E : Type} {s s' : State V E} {op : OpId} {l : Label V E}

/-! ## Deliveries -/

/-- The source has completed and stored its result. -/
def Source.completed : Source E → Bool
  | .notifying | .calling _ | .locked _ _ | .delivering _ _ => true
  | _ => false

theorem Phased.finished (h : Phased s) (hp : s.phase = .done) :
    s.source.completed = true ∨ s.firstThrew ≠ none := by
  unfold Phased at h
  rw [hp] at h
  obtain ⟨-, -, ⟨-, hthrew, -⟩ | hs | ⟨hs, -⟩⟩ := h
  · exact .inr hthrew
  · rw [hs]
    exact .inl rfl
  · left
    revert hs
    cases s.source <;> simp [Source.calls, Source.completed]

/-- A subscriber whose call is over and whose callback was run has been completed, unless it
was destroyed. -/
theorem Inv.completed_once (h : Inv s) (hc : (s.sub op).call = .returned) (hd : op ∉ s.onDone)
    (hcb : op ∉ s.source.callbacks) (halive : (s.sub op).destroyed = false) :
    (s.completed.map Prod.fst).count op = 1 := by
  have hp := h.places op
  have hdrop : op ∉ s.dropped := by
    intro hm
    have hdes := h.dropped op hm
    rw [halive] at hdes
    cases hdes
  unfold State.places at hp
  rw [hc, List.count_eq_zero.mpr hd, List.count_eq_zero.mpr hcb, List.count_eq_zero.mpr hdrop] at hp
  simpa [Call.token, Call.registered] using hp

/-! ## Destroyed subscribers -/

/-- The subscriber is inactive and no delivery to it has begun or was made. -/
structure Silent (s : State V E) (op : OpId) : Prop where
  inv : Inv s
  inactive : (s.sub op).active = false
  begun : ¬s.Begun op
  completed : op ∉ s.completed.map Prod.fst

theorem Silent.quiet (h : Silent s op) (hinv : Inv s')
    (hsub : (s'.sub op).active = (s.sub op).active)
    (hcall : (s'.sub op).call.begun = true → (s.sub op).call.begun = true)
    (hsource : s'.source.delivers = some op → s.source.delivers = some op)
    (hcomp : op ∈ s'.completed.map Prod.fst → op ∈ s.completed.map Prod.fst) : Silent s' op := by
  refine ⟨hinv, hsub.trans h.inactive, ?_, fun hm => h.completed (hcomp hm)⟩
  rintro (hb | hb)
  · exact h.begun (.inl (hcall hb))
  · exact h.begun (.inr (hsource hb))

theorem deliverResult_sub (s : State V E) (o : OpId) : (s.deliverResult o).sub = s.sub := by
  unfold State.deliverResult
  split <;> rfl

theorem deliverResult_source (s : State V E) (o : OpId) : (s.deliverResult o).source = s.source := by
  unfold State.deliverResult
  split <;> rfl

theorem mem_deliverResult {o : OpId} (ho : op ≠ o)
    (hm : op ∈ (s.deliverResult o).completed.map Prod.fst) : op ∈ s.completed.map Prod.fst := by
  unfold State.deliverResult at hm
  split at hm
  · rw [List.map_append, List.mem_append] at hm
    rcases hm with hm | hm
    · exact hm
    · rw [List.map_singleton, List.mem_singleton] at hm
      exact absurd hm ho
  · exact hm

/-- A call changes only its own subscriber, and begins a delivery only if it is active. -/
theorem Silent.setSub {x : Sub E} {o : OpId} (h : Silent s op) (hinv : Inv s')
    (hsub : s'.sub = Function.update s.sub o x) (hx : o = op → x.active = false ∧
      x.call.begun = false) (hsource : s'.source.delivers = some op → s.source.delivers = some op)
    (hcomp : op ∈ s'.completed.map Prod.fst → op ∈ s.completed.map Prod.fst) : Silent s' op := by
  by_cases ho : o = op
  · subst ho
    obtain ⟨ha, hb⟩ := hx rfl
    refine h.quiet hinv ?_ ?_ hsource hcomp
    · rw [hsub, Function.update_self, ha, h.inactive]
    · rw [hsub, Function.update_self, hb]
      nofun
  · have hsame : s'.sub op = s.sub op := by
      rw [hsub, Function.update_of_ne (Ne.symm ho)]
    exact h.quiet hinv (by rw [hsame]) (by rw [hsame]; exact id) hsource hcomp

theorem register_frame (s : State V E) (o : OpId) (throws : Option E) :
    ∃ x, (s.register o throws).sub = Function.update s.sub o x ∧
      x.active = (s.sub o).active ∧ x.call.begun = false ∧
      (s.register o throws).source = s.source ∧ (s.register o throws).completed = s.completed := by
  unfold State.register
  split <;> exact ⟨_, rfl, rfl, rfl, rfl, rfl⟩

theorem complete_frame (s : State V E) (signal : Signal V E) (throws : Option E) :
    (s.complete signal throws).sub = s.sub ∧
      (s.complete signal throws).completed = s.completed ∧
      (s.complete signal throws).source.delivers = none := by
  unfold State.complete
  split_ifs
  · split <;> exact ⟨rfl, rfl, rfl⟩
  · exact ⟨rfl, rfl, rfl⟩

theorem silent_advance {o : OpId} {throws : Option E} (h : Silent s op)
    (hs : s.advance o throws = some s') : Silent s' op := by
  have hinv := inv_advance h.inv hs
  have hnb : o = op → (s.sub o).call.begun = false := by
    rintro rfl
    by_contra hb
    exact h.begun (.inl (by simpa using hb))
  have hia : o = op → (s.sub o).active = false := by
    rintro rfl
    exact h.inactive
  unfold State.advance at hs
  dsimp only at hs
  split at hs
  · cases hs
  · cases hs
  · cases hs
    obtain ⟨x, hsub, ha, hb, hsource, hcomp⟩ := register_frame s o throws
    refine h.setSub hinv hsub (fun ho => ⟨ha.trans (hia ho), hb⟩) ?_ ?_
    · rw [hsource]
      exact id
    · rw [hcomp]
      exact id
  · cases hs
    exact h.setSub (o := o) hinv rfl (fun ho => ⟨hia ho, rfl⟩) nofun id
  · cases hs
    exact h.setSub (o := o) hinv rfl (fun ho => ⟨hia ho, rfl⟩) id id
  · split_ifs at hs with ha
    · cases hs
      refine h.setSub (o := o) hinv rfl (fun ho => ?_) id id
      rw [hia ho] at ha
      cases ha
    · cases hs
      exact h.setSub (o := o) hinv rfl (fun ho => ⟨hia ho, rfl⟩) id id
  · split_ifs at hs with ha
    · cases hs
      refine h.setSub (o := o) hinv rfl (fun ho => ?_) id id
      rw [hia ho] at ha
      cases ha
    · cases hs
      exact h.setSub (o := o) hinv rfl (fun ho => ⟨hia ho, rfl⟩) id id
  · next hc =>
    cases hs
    have ho : op ≠ o := by
      rintro rfl
      have hb := hnb rfl
      rw [hc] at hb
      cases hb
    refine h.setSub (o := o) hinv (deliverResult_sub _ _) (fun he => absurd he.symm ho) ?_ ?_
    · rw [deliverResult_source]
      exact id
    · exact mem_deliverResult ho
  · next error hc =>
    cases hs
    have ho : op ≠ o := by
      rintro rfl
      have hb := hnb rfl
      rw [hc] at hb
      cases hb
    refine h.setSub (o := o) hinv rfl (fun he => absurd he.symm ho) id ?_
    intro hm
    simpa [ho] using hm

theorem silent_notify (h : Silent s op) (hs : s.notify = some s') : Silent s' op := by
  have hinv := inv_notify h.inv hs
  have hns : s.source.delivers ≠ some op := fun hd => h.begun (.inr hd)
  unfold State.notify at hs
  split at hs
  · cases hs
    exact h.quiet hinv rfl id nofun id
  · cases hs
    exact h.quiet hinv rfl id nofun id
  · dsimp only at hs
    split_ifs at hs <;> cases hs <;> exact h.quiet hinv rfl id nofun id
  · next o callbacks _ =>
    dsimp only at hs
    split_ifs at hs with ha
    · cases hs
      have ho : o ≠ op := by
        rintro rfl
        rw [h.inactive] at ha
        cases ha
      refine h.setSub (o := o) hinv rfl (fun he => absurd he ho) ?_ id
      intro hd
      cases hd
      exact absurd rfl ho
    · cases hs
      exact h.quiet hinv rfl id nofun id
  · next o callbacks hsource =>
    cases hs
    have ho : op ≠ o := by
      rintro rfl
      rw [hsource] at hns
      exact hns rfl
    refine h.quiet hinv ?_ ?_ ?_ (mem_deliverResult ho)
    · rw [deliverResult_sub]
    · rw [deliverResult_sub]
      exact id
    · rw [deliverResult_source]
      nofun
  · cases hs

theorem silent_step (h : Silent s op) (hs : step s l = some s') : Silent s' op := by
  have hinv := inv_step h.inv hs
  cases l with
  | connect o =>
    simp only [step, Option.ite_none_right_eq_some, Option.some.injEq] at hs
    obtain ⟨-, rfl⟩ := hs
    exact h.quiet hinv rfl id id id
  | dropSender =>
    cases hs
    exact h.quiet hinv rfl id id id
  | start o throws =>
    simp only [step, Option.ite_none_right_eq_some] at hs
    obtain ⟨-, hs⟩ := hs
    have hia : o = op → (s.sub o).active = false := by
      rintro rfl
      exact h.inactive
    cases throws with
    | none =>
      cases hs
      exact h.setSub (o := o) hinv rfl (fun ho => ⟨hia ho, rfl⟩) id id
    | some error =>
      cases hs
      exact h.setSub (o := o) hinv rfl (fun ho => ⟨hia ho, rfl⟩) id id
  | advance o throws => exact silent_advance h hs
  | destroy o =>
    simp only [step, Option.ite_none_right_eq_some, Option.some.injEq] at hs
    obtain ⟨-, rfl⟩ := hs
    refine h.setSub (o := o) hinv rfl (fun ho => ⟨rfl, ?_⟩) id id
    subst ho
    by_contra hb
    exact h.begun (.inl (by simpa using hb))
  | complete signal throws =>
    simp only [step, Option.ite_none_right_eq_some, Option.some.injEq] at hs
    obtain ⟨-, rfl⟩ := hs
    obtain ⟨hsub, hcomp, hdel⟩ := complete_frame s signal throws
    refine h.quiet hinv (by rw [hsub]) (by rw [hsub]; exact id) ?_ (by rw [hcomp]; exact id)
    rw [hdel]
    rintro ⟨⟩
  | notify => exact silent_notify h hs

/-! ## The cached result -/

theorem deliverResult_cached (s : State V E) (o : OpId) :
    (s.deliverResult o).cached = s.cached ∧ (s.deliverResult o).phase = s.phase := by
  unfold State.deliverResult
  split <;> exact ⟨rfl, rfl⟩

/-- Once the state is done, its result stays. -/
theorem done_step (h : Inv s) (hp : s.phase = .done) (hs : step s l = some s') :
    s'.phase = .done ∧ s'.cached = s.cached := by
  -- A source that still runs, or whose error is caught, belongs to the running phase.
  have hrunning : ¬(s.source = .running ∨ ∃ error, s.source = .caught error) := by
    intro hr
    have hrun := (h.running hr).1
    rw [hp] at hrun
    cases hrun
  cases l with
  | connect o =>
    simp only [step, Option.ite_none_right_eq_some, Option.some.injEq] at hs
    obtain ⟨-, rfl⟩ := hs
    exact ⟨hp, rfl⟩
  | dropSender =>
    cases hs
    exact ⟨hp, rfl⟩
  | start o throws =>
    simp only [step, Option.ite_none_right_eq_some] at hs
    obtain ⟨-, hs⟩ := hs
    cases throws <;> cases hs <;> exact ⟨hp, rfl⟩
  | advance o throws =>
    simp only [step, State.advance] at hs
    split at hs
    · cases hs
    · cases hs
    · cases hs
      unfold State.register
      rw [hp]
      exact ⟨hp, rfl⟩
    · cases hs
      exact ⟨hp, rfl⟩
    · cases hs
      exact ⟨hp, rfl⟩
    · split_ifs at hs <;> cases hs <;> exact ⟨hp, rfl⟩
    · split_ifs at hs <;> cases hs <;> exact ⟨hp, rfl⟩
    · cases hs
      obtain ⟨hc, hp'⟩ := deliverResult_cached (s.setCall o .returned) o
      exact ⟨hp'.trans hp, hc⟩
    · cases hs
      exact ⟨hp, rfl⟩
  | destroy o =>
    simp only [step, Option.ite_none_right_eq_some, Option.some.injEq] at hs
    obtain ⟨-, rfl⟩ := hs
    exact ⟨hp, rfl⟩
  | complete signal throws =>
    simp only [step, Option.ite_none_right_eq_some, Option.some.injEq] at hs
    obtain ⟨⟨hrun, -⟩, -⟩ := hs
    exfalso
    apply hrunning
    revert hrun
    cases s.source <;> simp [Source.isRunning]
  | notify =>
    simp only [step, State.notify] at hs
    split at hs
    · next error hsource => exact absurd (.inr ⟨error, hsource⟩) hrunning
    · cases hs
      exact ⟨hp, rfl⟩
    · split_ifs at hs <;> cases hs <;> exact ⟨hp, rfl⟩
    · split_ifs at hs <;> cases hs <;> exact ⟨hp, rfl⟩
    · next o callbacks _ =>
      cases hs
      obtain ⟨hc, hp'⟩ := deliverResult_cached { s with source := .calling callbacks } o
      exact ⟨hp'.trans hp, hc⟩
    · cases hs

theorem done_run (h : Inv s) (hp : s.phase = .done) {ls : List (Label V E)}
    (hrun : run step s ls = some s') : s'.phase = .done ∧ s'.cached = s.cached := by
  have hall := run_preserves (P := fun u : State V E => Inv u ∧ u.phase = .done ∧
    u.cached = s.cached) ?_ ⟨h, hp, rfl⟩ hrun
  · exact hall.2
  · rintro u a v ⟨hi, hpu, hcu⟩ hs
    obtain ⟨hpv, hcv⟩ := done_step hi hpu hs
    exact ⟨inv_step hi hs, hpv, hcv.trans hcu⟩

/-! ## Progress -/

/-- The source still has something to do for the subscribers. -/
def Source.busy : Source E → Bool
  | .caught _ | .notifying | .calling (_ :: _) | .locked _ _ | .delivering _ _ => true
  | _ => false

theorem notify_isSome (hb : s.source.busy = true) : s.notify.isSome = true := by
  unfold State.notify
  revert hb
  cases s.source with
  | calling callbacks =>
    cases callbacks with
    | nil => nofun
    | cons o rest =>
      intro _
      dsimp only
      split_ifs <;> rfl
  | locked o callbacks =>
    intro _
    dsimp only
    split_ifs <;> rfl
  | caught error => exact fun _ => rfl
  | notifying => exact fun _ => rfl
  | delivering o callbacks => exact fun _ => rfl
  | _ => nofun

theorem advance_isSome (hc : (s.sub op).call.inProgress = true) (throws : Option E) :
    (s.advance op throws).isSome = true := by
  unfold State.advance
  dsimp only
  revert hc
  cases (s.sub op).call with
  | connected => nofun
  | returned => nofun
  | direct =>
    intro _
    dsimp only
    split_ifs <;> rfl
  | failing error =>
    intro _
    dsimp only
    split_ifs <;> rfl
  | _ => exact fun _ => rfl

/-- What the source has still to do, a callback being three steps. -/
def Source.work : Source E → ℕ
  | .idle | .running | .lost => 0
  | .caught _ => 2
  | .notifying => 1
  | .calling callbacks => 3 * callbacks.length
  | .locked _ callbacks => 3 * callbacks.length + 2
  | .delivering _ callbacks => 3 * callbacks.length + 1

def Call.work : Call E → ℕ
  | .connected | .returned => 0
  | .registering => 10
  | .sourceStart => 2
  | .inSource => 1
  | .direct | .failing _ => 2
  | .delivering | .deliveringError _ => 1

/-- A bound on the steps that are due. -/
def State.work (s : State V E) : ℕ :=
  census Call.work (fun o => (s.sub o).call) s.ops + s.source.work + 3 * s.onDone.length

/-- The operations that were started are connected. -/
structure Listed (s : State V E) : Prop where
  nodup : s.ops.Nodup
  started : ∀ o, (s.sub o).call.isConnected = false → o ∈ s.ops

theorem Listed.setSub {x : Sub E} {o : OpId} (h : Listed s) (hops : s'.ops = s.ops)
    (hsub : s'.sub = Function.update s.sub o x)
    (hx : x.call.isConnected = false → o ∈ s.ops) : Listed s' := by
  refine ⟨by rw [hops]; exact h.nodup, ?_⟩
  rw [hsub, hops]
  exact forall_update (P := fun o (y : Sub E) => y.call.isConnected = false → o ∈ s.ops)
    (fun o _ => h.started o) hx

theorem deliverResult_ops (s : State V E) (o : OpId) : (s.deliverResult o).ops = s.ops := by
  unfold State.deliverResult
  split <;> rfl

theorem deliverResult_onDone (s : State V E) (o : OpId) : (s.deliverResult o).onDone = s.onDone := by
  unfold State.deliverResult
  split <;> rfl

/-- What a step of a call does to the work that is due. -/
theorem advance_work {throws : Option E} (hs : s.advance op throws = some s') :
    s'.ops = s.ops ∧ (s.sub op).call.isConnected = false ∧
      ∃ x, s'.sub = Function.update s.sub op x ∧
        x.call.work + s'.source.work + 3 * s'.onDone.length <
          (s.sub op).call.work + s.source.work + 3 * s.onDone.length := by
  unfold State.advance at hs
  dsimp only at hs
  split at hs
  · cases hs
  · cases hs
  · next hc =>
    cases hs
    rw [hc]
    unfold State.register
    split <;> refine ⟨rfl, rfl, _, rfl, ?_⟩ <;> simp [Call.work] <;> omega
  · next hc =>
    cases hs
    rw [hc]
    refine ⟨rfl, rfl, _, rfl, ?_⟩
    simp [Call.work, Source.work]
    omega
  · next hc =>
    cases hs
    rw [hc]
    exact ⟨rfl, rfl, _, rfl, by simp [Call.work]⟩
  · next hc =>
    rw [hc]
    split_ifs at hs <;> cases hs <;> exact ⟨rfl, rfl, _, rfl, by simp [Call.work]⟩
  · next error hc =>
    rw [hc]
    split_ifs at hs <;> cases hs <;> exact ⟨rfl, rfl, _, rfl, by simp [Call.work]⟩
  · next hc =>
    cases hs
    rw [hc]
    refine ⟨deliverResult_ops _ _, rfl, _, deliverResult_sub _ _, ?_⟩
    rw [deliverResult_source, deliverResult_onDone]
    simp [Call.work]
  · next error hc =>
    cases hs
    rw [hc]
    exact ⟨rfl, rfl, _, rfl, by simp [Call.work]⟩

theorem work_advance (h : Listed s) {throws : Option E} (hs : s.advance op throws = some s') :
    s'.work < s.work := by
  obtain ⟨hops, hc, x, hsub, hlt⟩ := advance_work hs
  have hcensus := census_update (g := Call.work) (f := fun o => (s.sub o).call) (x := x.call) h.nodup
    (h.started op hc)
  have hcalls : (fun o => (s'.sub o).call) =
      Function.update (fun o => (s.sub o).call) op x.call := by
    rw [hsub]
    funext o
    by_cases ho : o = op
    · subst ho
      simp
    · simp [Function.update_of_ne ho]
  unfold State.work
  rw [hops, hcalls]
  omega

theorem work_notify (hs : s.notify = some s') : s'.work < s.work := by
  unfold State.notify at hs
  unfold State.work
  split at hs
  · next error hsource =>
    cases hs
    simp [hsource, Source.work]
  · next hsource =>
    cases hs
    simp [hsource, Source.work]
  · next o callbacks hsource =>
    dsimp only at hs
    split_ifs at hs <;> cases hs <;> simp only [hsource, Source.work, List.length_cons] <;> omega
  · next o callbacks hsource =>
    dsimp only at hs
    split_ifs at hs with ha
    · cases hs
      have hcalls : (fun o' => ((s.setSub o { s.sub o with active := false }).sub o').call) =
          fun o' => (s.sub o').call := by
        funext o'
        by_cases ho : o' = o
        · subst ho
          simp
        · simp [Function.update_of_ne ho]
      show census Call.work (fun o' => ((s.setSub o { s.sub o with active := false }).sub o').call)
        s.ops + _ + _ < _
      rw [hcalls, hsource]
      simp only [Source.work, State.setSub]
      omega
    · cases hs
      simp only [hsource, Source.work]
      omega
  · next o callbacks hsource =>
    cases hs
    rw [deliverResult_sub, deliverResult_ops, deliverResult_source, deliverResult_onDone]
    simp only [hsource, Source.work]
    omega
  · cases hs

theorem notify_frame (hs : s.notify = some s') :
    s'.ops = s.ops ∧ ∀ o, (s'.sub o).call = (s.sub o).call := by
  unfold State.notify at hs
  split at hs
  · cases hs
    exact ⟨rfl, fun _ => rfl⟩
  · cases hs
    exact ⟨rfl, fun _ => rfl⟩
  · dsimp only at hs
    split_ifs at hs <;> cases hs <;> exact ⟨rfl, fun _ => rfl⟩
  · next o callbacks _ =>
    dsimp only at hs
    split_ifs at hs
    · cases hs
      refine ⟨rfl, ?_⟩
      exact forall_update (P := fun o' (y : Sub E) => y.call = (s.sub o').call) (fun _ _ => rfl) rfl
    · cases hs
      exact ⟨rfl, fun _ => rfl⟩
  · cases hs
    exact ⟨deliverResult_ops _ _, fun o' => by rw [deliverResult_sub]⟩
  · cases hs

theorem listed_step (h : Listed s) (hs : step s l = some s') : Listed s' := by
  cases l with
  | connect o =>
    simp only [step, Option.ite_none_right_eq_some, Option.some.injEq] at hs
    obtain ⟨⟨-, hno⟩, rfl⟩ := hs
    refine ⟨?_, fun o' hc => List.mem_append_left _ (h.started o' hc)⟩
    rw [← List.concat_eq_append]
    exact h.nodup.concat hno
  | dropSender =>
    cases hs
    exact ⟨h.nodup, h.started⟩
  | start o throws =>
    simp only [step, Option.ite_none_right_eq_some] at hs
    obtain ⟨⟨hm, -⟩, hs⟩ := hs
    cases throws <;> cases hs <;> exact h.setSub rfl rfl fun _ => hm
  | advance o throws =>
    obtain ⟨hops, hc, x, hsub, -⟩ := advance_work hs
    exact h.setSub hops hsub fun _ => h.started o hc
  | destroy o =>
    simp only [step, Option.ite_none_right_eq_some, Option.some.injEq] at hs
    obtain ⟨⟨hm, -⟩, rfl⟩ := hs
    exact h.setSub rfl rfl fun _ => hm
  | complete signal throws =>
    simp only [step, Option.ite_none_right_eq_some, Option.some.injEq] at hs
    obtain ⟨-, rfl⟩ := hs
    have hops : (s.complete signal throws).ops = s.ops := by
      unfold State.complete
      split_ifs
      · split <;> rfl
      · rfl
    refine ⟨by rw [hops]; exact h.nodup, ?_⟩
    rw [(complete_frame s signal throws).1, hops]
    exact h.started
  | notify =>
    obtain ⟨hops, hcalls⟩ := notify_frame hs
    refine ⟨by rw [hops]; exact h.nodup, ?_⟩
    intro o hc
    rw [hcalls] at hc
    rw [hops]
    exact h.started o hc

theorem reachable_listed (h : Reachable step Initial s) : Listed s := by
  refine Reachable.preserves ?_ (fun _ _ _ hp hs => listed_step hp hs) h
  rintro _ ⟨signatures, rfl⟩
  exact ⟨List.nodup_nil, nofun⟩

/-! ## The guarantee -/

/-- The steps of the calls of `start` and of the completion of the source. -/
def Label.internal : Label V E → Bool
  | .advance _ _ | .notify => true
  | _ => false

structure Shares (s : State V E) : Prop where
  sourceOnce : s.sourceStarts ≤ 1
  once : ∀ op, (s.completed.map Prod.fst).count op ≤ 1
  /-- Nobody is completed with the cached result before there is one. -/
  cached : ∀ op completion, (op, completion) ∈ s.completed → (s.sub op).threw = none →
    s.phase = .done ∧ s.cached = some completion
  finished : s.phase = .done → s.source.completed = true ∨ s.firstThrew ≠ none
  stable : s.phase = .done → ∀ ls s', run step s ls = some s' → s'.cached = s.cached
  /-- Who registered and was not destroyed is completed once its call and its callback are
  through. -/
  completed : ∀ op, (s.sub op).call = .returned → (s.sub op).destroyed = false →
    op ∉ s.onDone → op ∉ s.source.callbacks → (s.completed.map Prod.fst).count op = 1
  /-- No callback waits for a source that has come to its end. -/
  waiting : s.phase = .done → s.source.busy = false → s.onDone = [] ∧ s.source.callbacks = []
  ownError : ∀ op error, (s.sub op).threw = some error →
    op ∉ s.onDone ∧ op ∉ s.source.callbacks ∧
      ∀ completion, (op, completion) ∈ s.completed → completion = .error error
  destroyed : ∀ op, (s.sub op).destroyed = true → ¬s.Begun op → op ∉ s.completed.map Prod.fst →
    ∀ ls s', run step s ls = some s' → op ∉ s'.completed.map Prod.fst
  terminated : s.terminated = false
  /-- What is due can go on, and only for so many steps. -/
  progress : (s.source.busy = true → s.notify.isSome = true) ∧
    ∀ op throws, (s.sub op).call.inProgress = true → (s.advance op throws).isSome = true
  bounded : ∀ ls s', (∀ l ∈ ls, l.internal = true) → run step s ls = some s' → ls.length ≤ s.work

theorem Phased.waiting (h : Phased s) (hp : s.phase = .done) (hb : s.source.busy = false) :
    s.onDone = [] ∧ s.source.callbacks = [] := by
  unfold Phased at h
  rw [hp] at h
  obtain ⟨-, -, ⟨hs, -, hon⟩ | hs | ⟨hs, hon⟩⟩ := h
  · rw [hs]
    exact ⟨hon, rfl⟩
  · rw [hs] at hb
    cases hb
  · refine ⟨hon, ?_⟩
    revert hs hb
    cases s.source with
    | calling callbacks =>
      cases callbacks with
      | nil => exact fun _ _ => rfl
      | cons o rest => nofun
    | _ => nofun

/-- A `split` sender starts its source once, completes every subscriber that stays at most and
in the end exactly once with the one cached result, and leaves the destroyed ones alone. -/
theorem split_shares_one_execution (h : Reachable step Initial s) : Shares s := by
  have hi := reachable_inv h
  have hl := reachable_listed h
  refine ⟨?_, ?_, ?_, hi.phased.finished, fun hp ls s' hrun => (done_run hi hp hrun).2,
    fun op hc hd hon hcb => hi.completed_once hc hon hcb hd, fun hp hb => hi.phased.waiting hp hb, ?_,
    ?_, hi.terminated, ⟨notify_isSome, fun op throws hc => advance_isSome hc throws⟩, ?_⟩
  · rw [hi.starts]
    cases s.source <;> simp [Source.starts]
  · intro op
    have hle := hi.places_le op
    unfold State.places at hle
    omega
  · intro op c hm ht
    have hr := hi.results op c hm
    unfold Receives at hr
    rwa [ht] at hr
  · intro op error ht
    obtain ⟨hon, hcb, -⟩ := hi.threw op error ht
    refine ⟨hon, hcb, ?_⟩
    intro c hm
    have hr := hi.results op c hm
    unfold Receives at hr
    rwa [ht] at hr
  · intro op hd hb hc ls s' hrun
    have hsilent : Silent s op := ⟨hi, hi.destroyed op hd, hb, hc⟩
    exact (run_preserves (P := fun u => Silent u op) (fun _ _ _ hp hs => silent_step hp hs) hsilent
      hrun).completed
  · intro ls s' hls hrun
    have hlowers : ∀ (u : State V E) a v, Listed u → a.internal = true → step u a = some v →
        Listed v ∧ v.work < u.work := by
      intro u a v hu ha hs
      refine ⟨listed_step hu hs, ?_⟩
      cases a with
      | advance o throws => exact work_advance hu hs
      | notify => exact work_notify hs
      | _ => cases ha
    have hle := run_length_le hlowers hl hls hrun
    omega

/-- The source completes while one subscriber registers and another is destroyed. One
registration throws, and a late subscriber delivers to itself. -/
theorem split_shares_one_execution_mixed : ∃ s : State ℕ ℕ, Reachable step Initial s ∧
    s.completed = [(3, .error 8), (0, .value [5]), (1, .value [5]), (4, .value [5])] ∧
    s.dropped = [2] ∧ s.sourceStarts = 1 ∧ Shares s := by
  obtain ⟨s, hs, h1, h2, h3⟩ : ∃ s : State ℕ ℕ,
      run step { signatures := ⟨true, false⟩ } [.connect 0, .connect 1, .connect 2, .connect 3,
        .connect 4, .start 0 none, .advance 0 none, .advance 0 none, .start 1 none, .start 2 none,
        .advance 2 none, .start 3 none, .advance 3 (some 8), .advance 3 none, .advance 3 none,
        .advance 1 none, .complete (.value [5]) none, .start 4 none, .notify, .notify, .notify,
        .notify, .destroy 2, .notify, .advance 4 none, .notify, .notify, .notify, .advance 4 none,
        .advance 4 none, .advance 0 none] = some s ∧
      s.completed = [(3, .error 8), (0, .value [5]), (1, .value [5]), (4, .value [5])] ∧
      s.dropped = [2] ∧ s.sourceStarts = 1 := ⟨_, rfl, rfl, rfl, rfl⟩
  have hr : Reachable step Initial s := ⟨_, ⟨_, rfl⟩, _, hs⟩
  exact ⟨s, hr, h1, h2, h3, split_shares_one_execution hr⟩

end CCForge.Split
