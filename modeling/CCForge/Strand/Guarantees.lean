import CCForge.Strand.Invariants

/-!
# What a strand guarantees

The invariant holds in every reachable state: whatever threads enqueue, shut down,
wait and complete runners in whatever order, with any allocation free to fail.
-/

namespace CCForge.Strand

variable {s s' : State} {o : Option (ThreadId × Frame)} {t : ThreadId}

theorem Inv.visit_same (h : Inv s o) {p : Shared × List Frame} {rest : List Frame} {n : ℕ}
    (hv : s.shared.Visit p [])
    (hrest : rest.filter Frame.holds = (s.stack t).filter Frame.holds)
    (hset : p.1.queue ≠ [] → p.1.active = true) :
    ∃ o', Inv ({ s with outstanding := n }.unlock t rest p) o' := by
  have hvisit := h.visit s.stopOnly n hv hrest (by simpa using h.nodup)
    (fun _ _ => rfl) (fun hq ha => by rw [hset hq] at ha; cases ha)
  simpa using hvisit

/-! ## Launching -/

theorem requestRelaunch_spec {frames new : List Frame} (h : requestRelaunch frames = some new) :
    new.filter Frame.holds = frames.filter Frame.holds ∧ .launching true ∈ new := by
  induction frames generalizing new with
  | nil => cases h
  | cons f rest ih =>
    have hcons : ∀ below, requestRelaunch rest = some below → new = f :: below →
        new.filter Frame.holds = (f :: rest).filter Frame.holds ∧ .launching true ∈ new := by
      rintro below hb rfl
      obtain ⟨hfilter, hmem⟩ := ih hb
      refine ⟨?_, List.mem_cons_of_mem f hmem⟩
      rw [List.filter_cons, List.filter_cons, hfilter]
    cases f with
    | launching b =>
      cases h
      exact ⟨rfl, List.mem_cons_self⟩
    | _ =>
      simp only [requestRelaunch, Option.map_eq_some_iff] at h
      obtain ⟨below, hb, rfl⟩ := h
      exact hcons below hb rfl

theorem launchRunner_filter (rest : List Frame) :
    (launchRunner rest).filter Frame.holds = rest.filter Frame.holds := by
  unfold launchRunner
  cases h : requestRelaunch rest with
  | none => rfl
  | some new => exact (requestRelaunch_spec h).1

theorem launchRunner_commits (rest : List Frame) : ∃ f ∈ launchRunner rest, f.commits = true := by
  unfold launchRunner
  cases h : requestRelaunch rest with
  | none => exact ⟨.launchOnce, List.mem_cons_self, rfl⟩
  | some new => exact ⟨.launching true, (requestRelaunch_spec h).2, rfl⟩

/-! ## Steps -/

theorem inv_enqueue (h : Inv s o) {r : RecordId} (hr : r ∉ s.enqueued) (stopOnly allocated : Bool) :
    ∃ o', Inv ({ s with
      stopOnly := Function.update s.stopOnly r stopOnly
      enqueued := s.enqueued ++ [r] }.unlock t (s.stack t) (s.shared.enqueue r allocated)) o' := by
  refine h.visit _ _ (Shared.enqueue_visit h.ok r allocated) rfl ?_ ?_ ?_
  · refine List.nodup_append.mpr ⟨h.nodup, by simp, ?_⟩
    rintro x hx y hy rfl
    exact hr (by rwa [List.mem_singleton.mp hy] at hx)
  · intro r' hr'
    refine Function.update_of_ne ?_ _ _
    rintro rfl
    exact hr hr'
  · intro hq ha
    rcases Shared.enqueue_launches h.ok r allocated hq ha with ⟨hq', ha'⟩ | hl
    · rcases h.underway hq' ha' with hu | hu
      · exact .inl hu
      · refine .inr (hu.keep ?_)
        rintro ⟨f, hf, hc⟩
        exact ⟨f, List.mem_append_right _ hf, hc⟩
    · exact .inr (Somewhere.here (List.mem_append_left _ hl) rfl)

/-- A record in the hand of a batch was never taken for a turn of its own. -/
theorem Inv.batch_not_taken (h : Inv s o) {r : RecordId} {more : List RecordId} {rest : List Frame}
    (hs : s.stack t = .batch (r :: more) :: rest) : (r, false) ∉ s.taken := by
  obtain ⟨ho, -⟩ := h.sole.of_top hs rfl
  subst ho
  intro hm
  obtain ⟨-, hb | ⟨u, hu⟩⟩ := h.taken r false hm
  · have hn := h.nodup
    have hbegun := h.begun
    rw [h.line, ← hbegun] at hn
    simp only [ofHolder, Frame.hand, List.append_assoc, List.cons_append] at hn
    exact (List.nodup_append.mp hn).2.2 r hb r (by simp) rfl
  · cases hu

theorem inv_advance (h : Inv s o) {allocated : Bool} (hs : s.advance t allocated = some s') :
    ∃ o', Inv s' o' := by
  unfold State.advance at hs
  split at hs
  · next rest htop =>
    cases hs
    refine ⟨o, h.restack (n := s.outstanding) ?_ fun _ => ?_⟩
    · rw [launchRunner_filter, htop]
      rfl
    · obtain ⟨f, hf, hc⟩ := launchRunner_commits rest
      exact .inr (Somewhere.here hf hc)
  · next relaunch rest htop =>
    cases hs
    refine ⟨o, h.restack (n := s.outstanding) ?_ fun hu => ?_⟩
    · rw [htop]
      cases relaunch <;> rfl
    · rcases hu with hu | hu
      · exact .inl hu
      · refine .inr (hu.keep ?_)
        rw [htop]
        cases relaunch with
        | true => exact fun _ => ⟨.launchOnce, List.mem_cons_self, rfl⟩
        | false =>
          rintro ⟨f, hf, hc⟩
          rcases List.mem_cons.mp hf with rfl | hf
          · cases hc
          · exact ⟨f, hf, hc⟩
  · next rest htop =>
    split at hs
    · cases hs
      refine ⟨o, h.restack (n := s.outstanding + 1) ?_ fun _ => .inl (Nat.succ_pos _)⟩
      rw [htop]
      rfl
    -- The launch is refused: the strand shuts down, and may hand back the queue as a batch.
    · cases hs
      refine h.visit_same (n := s.outstanding) (Shared.shutdown_visit h.ok) ?_
        (Shared.shutdown_settles h.ok)
      rw [htop]
      rfl
  · next r rest htop =>
    cases hs
    obtain ⟨ho, -⟩ := h.sole.of_top htop rfl
    have htaken := h.inHand t r ho
    refine ⟨_, h.begins htop rfl rfl rfl rfl rfl ?_ ?_ (by simp)⟩
    · cases hstop : s.stopOnly r <;> simp [htaken]
    · intro r' hr'
      cases hr'
      rfl
  · next rest htop =>
    cases hs
    obtain ⟨ho, -⟩ := h.sole.of_top htop rfl
    have hactive : s.shared.active = true := by simp [h.active, ho]
    refine h.handback htop rfl rfl rfl (by simp) (Shared.endTurn_handback h.ok hactive) ?_ ?_
    · intro r
      unfold Shared.endTurn
      split_ifs
      · simp
      · dsimp only
        split_ifs <;> simp
    · intro hq ha
      exact .inr (Somewhere.here
        (List.mem_append_left _ (Shared.endTurn_launches hq ha hactive)) rfl)
  · next r more rest htop =>
    cases hs
    refine ⟨_, h.begins htop rfl rfl rfl rfl rfl ?_ (by simp) (by simp)⟩
    simp [h.batch_not_taken htop]
  · next rest htop =>
    cases hs
    obtain ⟨ho, -⟩ := h.sole.of_top htop rfl
    have hactive : s.shared.active = true := by simp [h.active, ho]
    refine h.handback htop rfl rfl rfl (by simp) (Shared.nextBatch_handback h.ok hactive) ?_ ?_
    · intro r
      unfold Shared.nextBatch
      dsimp only
      split_ifs <;> simp
    · intro hq
      exact absurd Shared.nextBatch_queue hq
  · cases hs

theorem inv_ret (h : Inv s o) (hs : s.ret t = some s') : ∃ o', Inv s' o' := by
  unfold State.ret at hs
  split at hs
  · next rest htop =>
    cases hs
    refine ⟨o, h.restack (n := s.outstanding) ?_ fun hu => ?_⟩
    · rw [htop]
      rfl
    · rcases hu with hu | hu
      · exact .inl hu
      · refine .inr (hu.keep ?_)
        rw [htop]
        rintro ⟨f, hf, hc⟩
        rcases List.mem_cons.mp hf with rfl | hf
        · cases hc
        · exact ⟨f, hf, hc⟩
  · next r rest htop =>
    cases hs
    exact ⟨_, h.returns htop rfl rfl rfl rfl rfl (by simp) (by simp)⟩
  · next r more rest htop =>
    cases hs
    exact ⟨_, h.returns htop rfl rfl rfl rfl rfl (by simp) (by simp)⟩
  · cases hs

theorem inv_step (h : Inv s o) {l : Label} (hs : step s l = some s') : ∃ o', Inv s' o' := by
  cases l with
  | enqueue t r stopOnly allocated =>
    simp only [step, Option.ite_none_right_eq_some, Option.some.injEq] at hs
    obtain ⟨⟨-, hr⟩, rfl⟩ := hs
    exact inv_enqueue h hr stopOnly allocated
  | shutdown t =>
    simp only [step, Option.ite_none_right_eq_some, Option.some.injEq] at hs
    obtain ⟨-, rfl⟩ := hs
    exact h.visit_same (Shared.shutdown_visit h.ok) rfl (Shared.shutdown_settles h.ok)
  | runOne t =>
    simp only [step, Option.ite_none_right_eq_some, Option.some.injEq] at hs
    obtain ⟨-, rfl⟩ := hs
    exact h.visit_same (Shared.runOne_visit h.ok) rfl (Shared.runOne_settles h.ok)
  | stopAll t =>
    simp only [step, Option.ite_none_right_eq_some, Option.some.injEq] at hs
    obtain ⟨-, rfl⟩ := hs
    exact h.visit_same (Shared.shutdown_visit h.ok) rfl (Shared.shutdown_settles h.ok)
  | advance t allocated => exact inv_advance h hs
  | ret t => exact inv_ret h hs
  | wait t =>
    simp only [step, Option.ite_none_right_eq_some, Option.some.injEq] at hs
    obtain ⟨-, rfl⟩ := hs
    exact ⟨o, h⟩

/-- A strand as its constructor leaves it. -/
def Initial (s : State) : Prop := s = {}

theorem reachable_inv (h : Reachable step Initial s) : ∃ o, Inv s o := by
  refine h.preserves (P := fun s => ∃ o, Inv s o) ?_ ?_
  · rintro s rfl
    exact ⟨none, inv_initial⟩
  · rintro s l s' ⟨o, ho⟩ hs
    exact inv_step ho hs

/-- The records whose completion thread `t` is executing. -/
def executing (s : State) (t : ThreadId) : List RecordId := (s.stack t).flatMap Frame.current

theorem Frame.current_of_not_holds {f : Frame} (h : f.holds = false) : f.current = [] := by
  cases f <;> first | rfl | cases h

theorem flatMap_current (frames : List Frame) :
    frames.flatMap Frame.current = (frames.filter Frame.holds).flatMap Frame.current := by
  induction frames with
  | nil => rfl
  | cons f rest ih =>
    by_cases hf : f.holds = true
    · rw [List.filter_cons_of_pos hf, List.flatMap_cons, List.flatMap_cons, ih]
    · rw [List.filter_cons_of_neg hf, List.flatMap_cons, ih,
        Frame.current_of_not_holds (by simpa using hf), List.nil_append]

theorem Inv.executing_eq (h : Inv s o) (t : ThreadId) :
    executing s t = (ownedBy o t).flatMap Frame.current := by
  rw [executing, flatMap_current, h.sole t]

theorem Frame.current_length (f : Frame) : f.current.length ≤ 1 := by
  cases f <;> simp [Frame.current]

/-! ## Serialisation -/

structure Serialised (s : State) : Prop where
  /-- At most one completion is being executed, on one thread only. -/
  single : ∀ t, (executing s t).length ≤ 1
  exclusive : ∀ t u, t ≠ u → executing s t = [] ∨ executing s u = []
  /-- Completions begin and return in the order of the records' `enqueue`. -/
  begunInOrder : s.begun.map Prod.fst <+: s.enqueued
  returnedInOrder : s.returned <+: s.begun.map Prod.fst
  once : (s.begun.map Prod.fst).Nodup
  value : ∀ r, (r, .value) ∈ s.begun → (r, false) ∈ s.taken ∧ s.stopOnly r = false
  stopped : ∀ r sig, (r, sig) ∈ s.begun → ¬((r, false) ∈ s.taken ∧ s.stopOnly r = false) →
    sig = .stopped

/-- In every reachable state of a strand its records are completed one at a time, in
order, once, and with a value only from the queue of an open strand. -/
theorem strand_serialised (h : Reachable step Initial s) : Serialised s := by
  obtain ⟨o, ho⟩ := reachable_inv h
  refine ⟨?_, ?_, ho.begun_prefix, ?_, ?_, ?_, ?_⟩
  · intro t
    rw [ho.executing_eq]
    rcases o with _ | ⟨u, f⟩
    · simp
    · by_cases htu : t = u
      · subst htu
        simpa using f.current_length
      · simp [ownedBy_other htu]
  · intro t u htu
    rw [ho.executing_eq, ho.executing_eq]
    rcases o with _ | ⟨w, f⟩
    · simp
    · by_cases htw : t = w
      · right
        rw [ownedBy_other (fun hu => htu (htw.trans hu.symm))]
        rfl
      · left
        rw [ownedBy_other htw]
        rfl
  · rw [ho.begun]
    exact List.prefix_append _ _
  · exact ho.nodup.sublist ho.begun_prefix.sublist
  · intro r hr
    exact (ho.signal r .value hr).mp rfl
  · intro r sig hr hnot
    cases sig with
    | stopped => rfl
    | value => exact absurd ((ho.signal r .value hr).mp rfl) hnot

/-- Thread 1 completes record 0 while thread 2 enqueues record 1 and shuts the strand
down: thread 1 goes on to complete record 1 with stopped. -/
theorem strand_serialised_shutdown : ∃ s : State, Reachable step Initial s ∧
    s.begun = [(0, .value), (1, .stopped)] ∧ s.returned = [0] ∧ executing s 1 = [1] ∧
    Serialised s := by
  obtain ⟨s, hs, h1, h2, h3⟩ : ∃ s : State,
      run step {} [.enqueue 0 0 false true, .advance 0 true, .advance 0 true, .ret 0,
        .advance 0 true, .runOne 1, .advance 1 true, .enqueue 2 1 false true, .shutdown 2,
        .ret 1, .advance 1 true, .advance 1 true] = some s ∧
      s.begun = [(0, .value), (1, .stopped)] ∧ s.returned = [0] ∧ executing s 1 = [1] :=
    ⟨_, rfl, rfl, rfl, rfl⟩
  have hr : Reachable step Initial s := ⟨{}, rfl, _, hs⟩
  exact ⟨s, hr, h1, h2, h3, strand_serialised hr⟩

/-! ## Progress -/

structure KeepsWork (s : State) : Prop where
  activeRunning : s.shared.active = true → s.shared.running = true
  deferred : s.shared.deferredStopped ≠ [] → s.shared.active = true ∧ s.shared.closed = true
  queued : s.shared.queue ≠ [] → s.shared.running = true ∧
    (s.shared.active = true ∨ 0 < s.outstanding ∨ Somewhere Frame.commits s.stack)
  /-- When the predicate of `wait` holds, every completion so far has returned. -/
  quiet : s.shared.Quiet → s.returned = s.enqueued
  /-- A `wait` from outside the strand's turns returns only then. -/
  wait : ∀ t s', step s (.wait t) = some s' → inTurn (s.stack t) = false → s.returned = s.enqueued
  quiescent : (∀ t, s.stack t = []) → s.outstanding = 0 →
    s.shared.queue = [] ∧ s.shared.deferredStopped = [] ∧ s.returned = s.enqueued

theorem Inv.returned_of_idle (h : Inv s o) (ha : s.shared.active = false)
    (hq : s.shared.queue = []) : s.returned = s.enqueued := by
  have ho : o = none := by simpa [ha] using h.active
  rw [h.line, ho, hq, h.ok.deferred_nil ha]
  simp [ofHolder]

theorem Inv.quiet (h : Inv s o) (hq : s.shared.Quiet) : s.returned = s.enqueued := by
  refine h.returned_of_idle ?_ hq.1
  by_contra ha
  have hr := h.ok.activeRunning (by simpa using ha)
  rw [hq.2] at hr
  cases hr

/-- A strand never loses track of a record that it accepted, and `wait` is a barrier. -/
theorem strand_keeps_work (h : Reachable step Initial s) : KeepsWork s := by
  obtain ⟨o, ho⟩ := reachable_inv h
  refine ⟨ho.ok.activeRunning, ho.ok.deferred, ?_, ho.quiet, ?_, ?_⟩
  · intro hq
    refine ⟨ho.ok.queueRunning hq, ?_⟩
    by_cases ha : s.shared.active = true
    · exact .inl ha
    · exact .inr (ho.underway hq (by simpa using ha))
  · intro t s' hs hturn
    simp only [step, Option.ite_none_right_eq_some] at hs
    rcases hs.1.2 with hin | hq
    · rw [hturn] at hin
      cases hin
    · exact ho.quiet hq
  · intro hstack hout
    have ha : s.shared.active = false := by
      rw [ho.active]
      rcases o with _ | ⟨t, f⟩
      · rfl
      · have hsole := ho.sole t
        simp [hstack] at hsole
    have hq : s.shared.queue = [] := by
      by_contra hq
      rcases ho.underway hq ha with hu | ⟨t, f, hf, -⟩
      · omega
      · simp [hstack] at hf
    exact ⟨hq, ho.ok.deferred_nil ha, ho.returned_of_idle ha hq⟩

/-- With an inline scheduler the turn of record 0 ends inside the launch that began it:
only the `relaunch` flag of that launch stands for record 1. -/
theorem strand_keeps_work_inline : ∃ s : State, Reachable step Initial s ∧
    s.shared.queue = [1] ∧ s.shared.active = false ∧ s.outstanding = 0 ∧
    s.stack 0 = [.starting, .launching true] ∧ KeepsWork s := by
  obtain ⟨s, hs, h1, h2, h3, h4⟩ : ∃ s : State,
      run step {} [.enqueue 0 0 false true, .advance 0 true, .advance 0 true, .runOne 0,
        .advance 0 true, .enqueue 2 1 false true, .ret 0, .advance 0 true, .advance 0 true] =
        some s ∧ s.shared.queue = [1] ∧ s.shared.active = false ∧ s.outstanding = 0 ∧
      s.stack 0 = [.starting, .launching true] := ⟨_, rfl, rfl, rfl, rfl, rfl⟩
  have hr : Reachable step Initial s := ⟨{}, rfl, _, hs⟩
  exact ⟨s, hr, h1, h2, h3, h4, strand_keeps_work hr⟩

end CCForge.Strand
