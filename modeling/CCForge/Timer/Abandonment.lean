import CCForge.Timer.OperationSteps

/-!
# What the timer context owes its operations

The invariant holds in every reachable state, so for any threads that start, stop and
destroy operations in any order, from inside of completions too. What remains is to
read it off: the number of pending items, the completions of a receiver, and what is
left of an operation after its destructor has returned.
-/

namespace CCForge.Timer.Operations

variable {s s' : State} {t : ThreadId} {op : OpId} {f : Frame} {rest : List Frame} {l : Label}

/-! ## What a step adds -/

/-- What one step adds to the history and to the frames before the decrement. -/
structure Extends (s s' : State) : Prop where
  completed : s'.completed = s.completed ∨ ∃ t f rest sig, s.stack t = f :: rest ∧
    f.delivers = true ∧ (s.ops f.op).done = false ∧ s'.completed = s.completed ++ [(f.op, sig)]
  destroyed : s.destroyed ⊆ s'.destroyed
  delivered : ∀ op, (s.ops op).delivered = true → (s'.ops op).delivered = true
  accounts : ∀ t op, .account op ∈ s'.stack t → .account op ∈ s.stack t ∨
    (s'.ops op).delivered = true
  finished : ∀ op ∈ s'.finished, op ∈ s.finished ∨ ∃ t, .account op ∈ s.stack t

/-- The frames of a stack after thread `t` replaced its own. -/
theorem mem_update {stack : ThreadId → List Frame} {new : List Frame} {u : ThreadId} {g : Frame}
    (hg : g ∈ Function.update stack t new u) (hnew : g ∈ new → g ∈ stack t) : g ∈ stack u := by
  by_cases hu : u = t
  · subst hu
    rw [Function.update_self] at hg
    exact hnew hg
  · rwa [Function.update_of_ne hu] at hg

/-- A step that publishes nothing and accounts for nothing. -/
theorem Extends.quiet {new : List Frame}
    (hc : s'.completed = s.completed ∨ ∃ t f rest sig, s.stack t = f :: rest ∧
      f.delivers = true ∧ (s.ops f.op).done = false ∧ s'.completed = s.completed ++ [(f.op, sig)])
    (hd : s.destroyed ⊆ s'.destroyed) (hdel : ∀ op, (s'.ops op).delivered = (s.ops op).delivered)
    (hstack : s'.stack = Function.update s.stack t new)
    (hnew : ∀ op, .account op ∈ new → .account op ∈ s.stack t)
    (hfin : s'.finished = s.finished) : Extends s s' := by
  refine ⟨hc, hd, ?_, ?_, ?_⟩
  · intro op hop
    rw [hdel]
    exact hop
  · intro u op hm
    rw [hstack] at hm
    exact .inl (mem_update hm (hnew op))
  · intro op hm
    rw [hfin] at hm
    exact .inl hm

theorem Extends.same (hc : s'.completed = s.completed) (hd : s'.destroyed = s.destroyed)
    (ho : s'.ops = s.ops) (hstack : s'.stack = s.stack) (hfin : s'.finished = s.finished) :
    Extends s s' := by
  refine ⟨.inl hc, ?_, ?_, ?_, ?_⟩
  · rw [hd]
    exact fun _ hm => hm
  · intro op hop
    rw [ho]
    exact hop
  · intro t op hm
    rw [hstack] at hm
    exact .inl hm
  · intro op hm
    rw [hfin] at hm
    exact .inl hm

theorem delivered_setOp {x : Op} (hx : x.delivered = (s.ops op).delivered) (op' : OpId) :
    ((s.setOp op x).ops op').delivered = (s.ops op').delivered := by
  by_cases ho : op' = op
  · subst ho
    simp [hx]
  · simp [Function.update_of_ne ho]

theorem extends_complete (htop : s.stack t = f :: rest) (hf : f.delivers = true) (source : Source)
    (sig : Signal) : Extends s (s.complete t f.op source sig rest) := by
  have hnew : ∀ (g : Frame) op, (∀ op, g ≠ .account op) → .account op ∈ g :: rest →
      .account op ∈ s.stack t := by
    intro g op hg hm
    rw [htop]
    rcases List.mem_cons.mp hm with he | hm
    · exact absurd he.symm (hg op)
    · exact List.mem_cons_of_mem f hm
  unfold State.complete
  dsimp only
  split_ifs with hdone
  · exact .quiet (t := t) (.inl rfl) (fun _ hm => hm) (delivered_setOp rfl) rfl
      (fun op => hnew _ op nofun) rfl
  · refine .quiet (t := t) (.inr ⟨t, f, rest, sig, htop, hf, by simpa using hdone, rfl⟩)
      (fun _ hm => hm) (delivered_setOp rfl) rfl (fun op => hnew _ op nofun) rfl

theorem extends_publish {source : Source} (htop : s.stack t = .publish op source :: rest)
    {throws : Bool} (hs : s.advance t throws = some s') : Extends s s' := by
  rw [State.advance, htop] at hs
  cases hs
  have hdel : ∀ op', (s.ops op').delivered = true →
      ((if source.hasItem then s.setOp op { s.ops op with delivered := true } else s).ops
        op').delivered = true := by
    intro op' hop
    split_ifs
    · by_cases ho : op' = op
      · subst ho
        simp
      · simpa [Function.update_of_ne ho] using hop
    · exact hop
  refine ⟨.inl (by dsimp only; split_ifs <;> rfl), ?_, hdel, ?_, ?_⟩
  · dsimp only
    split_ifs <;> exact fun _ hm => hm
  · intro u op' hm
    have hstack : (if source.hasItem then s.setOp op { s.ops op with delivered := true }
        else s).stack = s.stack := by
      split_ifs <;> rfl
    simp only [State.setStack, hstack] at hm
    by_cases hnew : op' = op ∧ source = .worker
    · obtain ⟨rfl, rfl⟩ := hnew
      right
      simp [Source.hasItem]
    · left
      refine mem_update hm ?_
      intro hr
      rw [htop]
      split_ifs at hr with hsource
      · rcases List.mem_cons.mp hr with he | hr
        · cases he
          exact absurd ⟨rfl, hsource⟩ hnew
        · exact List.mem_cons_of_mem _ hr
      · exact List.mem_cons_of_mem _ hr
  · intro op' hm
    left
    dsimp only at hm
    split_ifs at hm <;> exact hm

/-- A step of the destructor leaves the atomics and the frames of the worker alone. -/
theorem extends_destructor {new : List Frame} (hc : s'.completed = s.completed)
    (hd : s'.destroyed = s.destroyed ∨ ∃ x, s'.destroyed = s.destroyed ++ [x])
    (hdel : ∀ op, (s'.ops op).delivered = (s.ops op).delivered)
    (hstack : s'.stack = Function.update s.stack t new)
    (hnew : ∀ op, .account op ∈ new → .account op ∈ s.stack t)
    (hfin : s'.finished = s.finished) : Extends s s' := by
  refine .quiet (.inl hc) ?_ hdel hstack hnew hfin
  rcases hd with hd | ⟨x, hd⟩
  · rw [hd]
    exact fun _ hm => hm
  · rw [hd]
    exact List.subset_append_left _ _

theorem extends_advance {throws : Bool} (hs : s.advance t throws = some s') : Extends s s' := by
  have hs₀ := hs
  unfold State.advance at hs
  split at hs
  · next item rest htop =>
    have hnew : ∀ op, .account op ∈ rest → .account op ∈ s.stack t := by
      intro op hm
      rw [htop]
      exact List.mem_cons_of_mem _ hm
    split at hs
    · cases hs
      exact extends_destructor rfl (.inl rfl) (delivered_setOp rfl) rfl hnew rfl
    · cases hs
      refine extends_destructor rfl (.inl rfl) (fun _ => rfl) rfl ?_ rfl
      intro op hm
      rcases List.mem_cons.mp hm with he | hm
      · cases he
      · exact hnew op hm
  · next op hasItem rest htop =>
    cases hs
    exact extends_complete htop rfl _ _
  · next op completeStopped rest htop =>
    cases hs
    exact extends_complete htop rfl _ _
  · next op source rest htop => exact extends_publish htop hs₀
  · next op rest htop =>
    cases hs
    refine ⟨.inl rfl, fun _ hm => hm, fun _ hd => hd, ?_, ?_⟩
    · intro u op' hm
      refine .inl (mem_update hm fun hr => ?_)
      rw [htop]
      exact List.mem_cons_of_mem _ hr
    · intro op' hm
      rcases List.mem_append.mp hm with hm | hm
      · exact .inl hm
      · right
        rw [List.mem_singleton] at hm
        exact ⟨t, by rw [htop, hm]; exact List.mem_cons_self⟩
  · next op rest htop =>
    have hnew : ∀ op', .account op' ∈ rest → .account op' ∈ s.stack t := by
      intro op' hm
      rw [htop]
      exact List.mem_cons_of_mem _ hm
    split at hs
    · cases hs
      exact extends_destructor rfl (.inr ⟨_, rfl⟩) (fun _ => rfl) rfl hnew rfl
    · cases hs
      refine extends_destructor rfl (.inl rfl) (fun _ => rfl) rfl ?_ rfl
      intro op' hm
      rcases List.mem_cons.mp hm with he | hm
      · cases he
      · exact hnew op' hm
  · next op rest htop =>
    split_ifs at hs
    cases hs
    refine extends_destructor rfl (.inr ⟨_, rfl⟩) (fun _ => rfl) rfl ?_ rfl
    intro op' hm
    rw [htop]
    exact List.mem_cons_of_mem _ hm
  · cases hs

/-- A frame put on a stack that does not account. -/
theorem account_of_cons (f : Frame) (hf : ∀ op, f ≠ .account op) {frames : List Frame} (op : OpId)
    (hm : .account op ∈ f :: frames) : .account op ∈ frames := by
  rcases List.mem_cons.mp hm with he | hm
  · exact absurd he.symm (hf op)
  · exact hm

theorem extends_destroy (op : OpId) : Extends s (s.destroy t op) := by
  unfold State.destroy
  dsimp only
  split_ifs
  · exact extends_destructor rfl (.inr ⟨_, rfl⟩) (fun _ => rfl) rfl (fun _ hm => hm) rfl
  · exact extends_destructor rfl (.inr ⟨_, rfl⟩) (fun _ => rfl) rfl (fun _ hm => hm) rfl
  · exact extends_destructor rfl (.inl rfl) (fun _ => rfl) rfl (account_of_cons (.await op) nofun) rfl
  · exact extends_destructor rfl (.inl rfl) (delivered_setOp rfl) rfl (account_of_cons (.discard op) nofun) rfl

theorem extends_start {item : Item} (outcome : Start) : Extends s (s.start t item outcome) := by
  cases outcome with
  | noItem =>
    exact extends_destructor rfl (.inl rfl) (delivered_setOp rfl) rfl
      (account_of_cons (.inlineStopped item.id false) nofun) rfl
  | failed =>
    exact extends_destructor rfl (.inl rfl) (delivered_setOp rfl) rfl
      (account_of_cons (.inlineStopped item.id true) nofun) rfl
  | ready =>
    exact extends_destructor rfl (.inl rfl) (delivered_setOp rfl) rfl
      (account_of_cons (.enqueue item) nofun) rfl

theorem extends_iterate (now : ℤ) : Extends s (s.iterate now) := by
  unfold State.iterate
  split
  · exact .same rfl rfl rfl rfl rfl
  · exact .same rfl rfl rfl rfl rfl
  · next item completeStopped items _ =>
    refine extends_destructor rfl (.inl rfl) (fun _ => rfl) rfl ?_ rfl
    intro op hm
    cases account_of_cons (.deliver item.id completeStopped) nofun op hm

theorem extends_step (hs : step s l = some s') : Extends s s' := by
  cases l with
  | start t item outcome =>
    simp only [step, Option.ite_none_right_eq_some, Option.some.injEq] at hs
    obtain ⟨-, rfl⟩ := hs
    exact extends_start outcome
  | requestItemStop op =>
    cases hs
    exact .same rfl rfl rfl rfl rfl
  | shutdown =>
    cases hs
    exact .same rfl rfl rfl rfl rfl
  | destroy t op =>
    simp only [step, Option.ite_none_right_eq_some, Option.some.injEq] at hs
    obtain ⟨-, rfl⟩ := hs
    exact extends_destroy op
  | iterate now =>
    simp only [step, Option.ite_none_right_eq_some, Option.some.injEq] at hs
    obtain ⟨-, rfl⟩ := hs
    exact extends_iterate now
  | advance t throws => exact extends_advance hs
  | ret t =>
    simp only [step] at hs
    split at hs
    · next op source rest htop =>
      cases hs
      refine extends_destructor rfl (.inl rfl) (fun _ => rfl) rfl ?_ rfl
      intro op' hm
      rw [htop]
      exact List.mem_cons_of_mem _ (account_of_cons (.publish op source) (by rintro _ ⟨⟩) op' hm)
    · cases hs
  | wait t =>
    simp only [step, Option.ite_none_right_eq_some, Option.some.injEq] at hs
    obtain ⟨-, rfl⟩ := hs
    exact .same rfl rfl rfl rfl rfl

/-! ## Delivered items -/

/-- The worker decrements for delivered items. -/
structure Published (s : State) : Prop where
  accounts : ∀ t op, .account op ∈ s.stack t → (s.ops op).delivered = true
  finished : ∀ op ∈ s.finished, (s.ops op).delivered = true

theorem published_step (h : Published s) (hs : step s l = some s') : Published s' := by
  have he := extends_step hs
  constructor
  · intro t op hm
    rcases he.accounts t op hm with hm | hd
    · exact he.delivered op (h.accounts t op hm)
    · exact hd
  · intro op hm
    rcases he.finished op hm with hm | ⟨t, hm⟩
    · exact he.delivered op (h.finished op hm)
    · exact he.delivered op (h.accounts t op hm)

theorem reachable_published (h : Reachable step Initial s) : Published s := by
  refine Reachable.preserves ?_ (fun _ _ _ hp hs => published_step hp hs) h
  rintro _ ⟨now, rfl⟩
  exact ⟨nofun, nofun⟩

/-! ## Pending items -/

theorem Books.pending_pos (h : Books s) (htop : s.stack t = .account op :: rest) :
    0 < s.shared.pending := by
  have hhand : inHand (s.stack t) = op :: inHand rest := by
    rw [htop]
    exact inHand_cons_of_unaccounted rfl
  have ht : t = worker := h.onWorker t (by rw [hhand]; simp)
  rw [h.pending, ← ht, hhand, List.length_cons]
  omega

theorem Books.pending_pos_of_queued (h : Books s) (hq : op ∈ s.shared.items.map Item.id) :
    0 < s.shared.pending := by
  obtain ⟨item, hi, -⟩ := List.mem_map.mp hq
  have hlen := List.length_pos_of_mem hi
  rw [h.pending]
  omega

theorem Books.idle_iff (h : Books s) :
    s.shared.Idle ↔ ∀ op ∈ s.accepted, op ∈ s.discarded ∨ op ∈ s.finished := by
  have hn : (s.accepted : Multiset OpId).Nodup := Multiset.coe_nodup.mpr h.accepted
  have hline := h.line
  unfold Shared.Idle
  rw [h.pending]
  constructor
  · intro hz op hop
    have hitems : s.shared.items = [] := List.length_eq_zero_iff.mp (by omega)
    have hhand : inHand (s.stack worker) = [] := List.length_eq_zero_iff.mp (by omega)
    rw [hitems, hhand] at hline
    have hop' : op ∈ (s.accepted : Multiset OpId) := hop
    simpa [hline] using hop'
  · intro hall
    rw [hline, add_assoc] at hn
    obtain ⟨-, -, hdisj⟩ := Multiset.nodup_add.mp hn
    -- what is queued or in hand would be discarded or finished as well
    have hnone : ((s.shared.items.map Item.id : List OpId) : Multiset OpId) +
        inHand (s.stack worker) = 0 := by
      apply Multiset.eq_zero_of_forall_notMem
      intro op hm
      have hop : op ∈ (s.accepted : Multiset OpId) := by
        rw [hline, add_assoc]
        exact Multiset.mem_add.mpr (.inl hm)
      refine Multiset.disjoint_left.mp hdisj hm ?_
      simpa using hall op hop
    have hcard := congrArg Multiset.card hnone
    simpa using hcard

/-! ## Completions -/

/-- The completion of the operation is due: its `start` is about to enqueue it or to complete
it, it is queued, or the worker is about to complete it. -/
def Due (s : State) (op : OpId) : Prop :=
  (∃ t rest, (∃ item : Item, item.id = op ∧ s.stack t = .enqueue item :: rest) ∨
    ∃ hasItem, s.stack t = .inlineStopped op hasItem :: rest) ∨
  op ∈ s.shared.items.map Item.id ∨
  ∃ completeStopped rest, s.stack worker = .deliver op completeStopped :: rest

theorem mem_framesOf (hm : f ∈ framesOf op rest) : f ∈ rest ∧ f.op = op := by
  simpa [framesOf] using hm

/-- A frame that nothing interrupts is on top. -/
theorem Books.on_top (h : Books s) (hm : f ∈ s.stack t) (hf : f.isCompleting = false) :
    ∃ rest, s.stack t = f :: rest := by
  have hn := h.nested t
  cases hst : s.stack t with
  | nil =>
    rw [hst] at hm
    cases hm
  | cons g rest =>
    rw [hst] at hm hn
    rcases List.mem_cons.mp hm with rfl | hm
    · exact ⟨rest, rfl⟩
    · have hc := hn f hm
      rw [hf] at hc
      cases hc

theorem Inv.completed_or_due (h : Inv s) (hst : op ∈ s.started) (hab : op ∉ s.abandoned) :
    op ∈ s.completed.map Prod.fst ∨ Due s op := by
  obtain ⟨o, d, hl⟩ := h.lives op
  have hdone : (s.ops op).done = true → op ∈ s.completed.map Prod.fst :=
    fun hd => (hl.claims.mp hd).resolve_right hab
  have hfit := hl.fits
  rcases o with _ | ⟨t, f⟩
  · rcases hfit.2 with hc | hc | hc
    · exact absurd hst hc.1
    · exact .inr (.inr (.inl hc.2.1))
    · exact .inl (hdone hc.2.2.1)
  · obtain ⟨hm, hop⟩ := mem_framesOf hl.mem_of_owner
    cases f with
    | enqueue item =>
      obtain ⟨rest, htop⟩ := h.books.on_top hm rfl
      exact .inr (.inl ⟨t, rest, .inl ⟨item, hop, htop⟩⟩)
    | inlineStopped op' hasItem =>
      obtain ⟨rest, htop⟩ := h.books.on_top hm rfl
      cases hop
      exact .inr (.inl ⟨t, rest, .inr ⟨hasItem, htop⟩⟩)
    | deliver op' c =>
      obtain ⟨rest, htop⟩ := h.books.on_top hm rfl
      cases hop
      have ht : t = worker := hfit.2.2.2.2.2.2.2
      rw [ht] at htop
      exact .inr (.inr (.inr ⟨c, rest, htop⟩))
    | completing op' source => exact .inl (hdone hfit.2.2.2.2.1)
    | publish op' source => exact .inl (hdone hfit.2.2.2.2.1)
    | account op' => cases hfit
    | discard op' => cases hfit
    | await op' => cases hfit

theorem Inv.not_completed_of_abandoned (h : Inv s) (hab : op ∈ s.abandoned) :
    op ∉ s.completed.map Prod.fst := by
  obtain ⟨o, d, hl⟩ := h.lives op
  intro hc
  exact hl.exclusive hc hab

/-! ## After the destructor -/

/-- Nothing of the operation is left in the context: its item is not queued, and no call on
the way to its completion or to the end of its delivery is under way. -/
structure Gone (s : State) (op : OpId) : Prop where
  queued : op ∉ s.shared.items.map Item.id
  delivery : (s.ops op).item = true → ∀ t, ∀ f ∈ s.stack t, f.op = op → f.delivers = false

theorem Inv.gone (h : Inv s) (hout : (op, false) ∈ s.destroyed) : Gone s op := by
  obtain ⟨o, d, hl⟩ := h.lives op
  obtain ⟨-, hq, -, -, hnone⟩ := hl.gone hout
  refine ⟨hq, ?_⟩
  intro hitem t f hm hop
  by_contra hf
  have hmem : f ∈ (s.view op).stack t := List.mem_filter.mpr ⟨hm, by simpa using hop⟩
  have ho := hl.owner_of_mem hmem (by simpa using hf)
  rw [hnone hitem] at ho
  cases ho

/-- The completions of a receiver. -/
def completionsOf (op : OpId) (s : State) : List (OpId × Signal) :=
  s.completed.filter fun c => c.1 = op

theorem completionsOf_step (h : Inv s) (hout : (op, false) ∈ s.destroyed)
    (hs : step s l = some s') : completionsOf op s' = completionsOf op s := by
  obtain ⟨o, d, hl⟩ := h.lives op
  obtain ⟨-, -, -, hend, -⟩ := hl.gone hout
  unfold completionsOf
  rcases (extends_step hs).completed with he | ⟨t, f, rest, sig, htop, hf, hdone, he⟩
  · rw [he]
  · have hop : f.op ≠ op := by
      intro hop
      have hmem : f ∈ (s.view op).stack t := by
        refine List.mem_filter.mpr ⟨?_, by simpa using hop⟩
        rw [htop]
        exact List.mem_cons_self
      rcases hend with hend | hend
      · have hd : (s.ops op).done = true := hend
        rw [← hop, hdone] at hd
        cases hd
      · have ho := hl.owner_of_mem hmem hf
        subst ho
        exact hend hl.owned.1
    rw [he, List.filter_append, List.filter_cons_of_neg (by simpa using hop)]
    simp

theorem gone_run (h : Inv s) (hout : (op, false) ∈ s.destroyed) {ls : List Label}
    (hrun : run step s ls = some s') :
    Gone s' op ∧ completionsOf op s' = completionsOf op s := by
  have hp := run_preserves (P := fun u : State => Inv u ∧ (op, false) ∈ u.destroyed ∧
    completionsOf op u = completionsOf op s) ?_ ⟨h, hout, rfl⟩ hrun
  · exact ⟨hp.1.gone hp.2.1, hp.2.2⟩
  · rintro u a v ⟨hi, ho, hc⟩ hs
    refine ⟨inv_step hi hs, (extends_step hs).destroyed ho, ?_⟩
    rw [completionsOf_step hi ho hs, hc]

/-- A destructor waits for a delivery that has been published or is under way elsewhere. -/
theorem Inv.awaits (h : Inv s) (htop : s.stack t = .await op :: rest) :
    (s.ops op).delivered = true ∨
      ∃ u, u ≠ t ∧ ∃ f ∈ s.stack u, f.op = op ∧ f.delivers = true := by
  obtain ⟨o, d, hl⟩ := h.lives op
  have hv : (s.view op).stack t = .await op :: framesOf op rest := by
    show framesOf op (s.stack t) = _
    rw [htop]
    exact framesOf_cons_self rfl
  obtain ⟨rfl, -⟩ := hl.destructor.of_top hv rfl
  have hd := hl.destructs t _ rfl
  have hfit := hl.fits
  rcases o with _ | ⟨u, f⟩
  · left
    rcases hfit.2 with hc | hc | hc
    · have hi := hd.item
      rw [hc.2.2.2] at hi
      cases hi
    · exact absurd hc.2.1 (hd.taken rfl)
    · exact (hc.2.2.2 hd.item).resolve_right hd.discarded
  · right
    obtain ⟨hm, hop⟩ := mem_framesOf hl.mem_of_owner
    have hf : f.delivers = true := by
      cases f with
      | account op' => cases hfit
      | discard op' => cases hfit
      | await op' => cases hfit
      | _ => rfl
    refine ⟨u, ?_, f, hm, hop, hf⟩
    rintro rfl
    have hn := hd.apart f hl.mem_of_owner
    rw [hf] at hn
    cases hn

/-! ## The guarantee -/

/-- What a timer context owes its operations. -/
structure Owes (s : State) : Prop where
  /-- The number counts the queued items and the items that the worker took and has not yet
  accounted for. -/
  pending : s.shared.pending = s.shared.items.length + (inHand (s.stack worker)).length
  elsewhere : ∀ t, t ≠ worker → inHand (s.stack t) = []
  /-- Both decrements find it positive. -/
  account : ∀ t op rest, s.stack t = .account op :: rest → 0 < s.shared.pending
  discard : ∀ op, (s.shared.discardItem op).2 = true → 0 < s.shared.pending
  idle : s.shared.Idle ↔ ∀ op ∈ s.accepted, op ∈ s.discarded ∨ op ∈ s.finished
  finished : ∀ op ∈ s.finished, (s.ops op).delivered = true
  once : (s.completed.map Prod.fst).Nodup
  claimed : ∀ op ∈ s.abandoned, op ∉ s.completed.map Prod.fst
  completed : ∀ op ∈ s.started, op ∉ s.abandoned → ¬Due s op →
    (s.completed.map Prod.fst).count op = 1
  /-- With the worker gone, nothing is queued any more. -/
  exited : s.exited = true → s.shared.items = []
  gone : ∀ op, (op, false) ∈ s.destroyed → ∀ ls s', run step s ls = some s' →
    Gone s' op ∧ completionsOf op s' = completionsOf op s
  awaits : ∀ t op rest, s.stack t = .await op :: rest → (s.ops op).delivered = true ∨
    ∃ u, u ≠ t ∧ ∃ f ∈ s.stack u, f.op = op ∧ f.delivers = true

end CCForge.Timer.Operations
