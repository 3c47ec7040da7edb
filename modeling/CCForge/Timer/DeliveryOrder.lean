import CCForge.Timer.Delivery

/-!
# What the timer context guarantees about deliveries

The results speak of every reachable state and of every run from it, whatever the
callers do and whatever the clock shows.
-/

namespace CCForge.Timer

variable {s s' : State} {x y : Item}

/-! ## Two items in one queue -/

/-- `x` comes before `y` by deadline and then by the order in which they were enqueued. -/
def Before (s : State) (x y : Item) : Prop :=
  x.deadline < y.deadline ∨ x.deadline = y.deadline ∧ [x, y].Sublist s.enqueued

theorem nodup_not_both {l : List Item} (hn : l.Nodup) (hxy : [x, y].Sublist l)
    (hyx : [y, x].Sublist l) : False := by
  have hlt : ∀ {a b : Item}, [a, b].Sublist l → l.idxOf a < l.idxOf b := by
    intro a b hab
    obtain ⟨l₁, l₂, rfl, ha, hb⟩ := List.cons_sublist_iff.mp hab
    rw [List.singleton_sublist] at hb
    have hb₁ : b ∉ l₁ := fun hm => (List.nodup_append.mp hn).2.2 b hm b hb rfl
    rw [List.idxOf_append_of_mem ha, List.idxOf_append_of_notMem hb₁]
    have hlen := List.idxOf_lt_length_of_mem ha
    omega
  exact lt_asymm (hlt hxy) (hlt hyx)

/-- What holds along a run from a state in which `x` and `y` are queued, `x` before `y`. -/
structure Ordered (x y : Item) (s : State) : Prop where
  inv : Inv s
  before : Before s x y
  enqueued : x ∈ s.enqueued
  gone : (y, false) ∈ s.taken → x ∉ s.shared.items
  order : (x, false) ∈ s.taken → (y, false) ∈ s.taken → [(x, false), (y, false)].Sublist s.taken

/-- An iteration does not take `y` for a value while `x` is queued. -/
theorem Before.not_due (h : Before s x y) (hi : Inv s) {now : ℤ} {l₁ l₂ : List Item}
    (hitems : s.shared.items = l₁ ++ y :: l₂) (hdue : s.shared.Due now y l₁ l₂) (hxy : x ≠ y) :
    x ∉ s.shared.items := by
  rw [hitems]
  intro hx
  have hle : x.deadline ≤ y.deadline := by
    rcases h with h | h
    · exact h.le
    · exact h.1.le
  rcases List.mem_append.mp hx with hx | hx
  · have hlt := hdue.before x hx
    omega
  · rcases List.mem_cons.mp hx with hx | hx
    · exact hxy hx
    · have hge := hdue.behind x hx
      rcases h with h | ⟨-, hsub⟩
      · omega
      · refine nodup_not_both hi.nodup hsub (List.Sublist.trans ?_ hi.sub)
        rw [hitems]
        refine List.Sublist.trans ?_ (List.sublist_append_right l₁ _)
        exact (List.singleton_sublist.mpr hx).cons_cons y

theorem ordered_iterate (h : Ordered x y s) (hxy : x ≠ y) (hw : s.worker = .iterating) (now : ℤ) :
    Ordered x y (s.iterate now) := by
  have hinv := inv_iterate h.inv hw now
  rcases s.iterate_cases now with ⟨-, -, he⟩ | ⟨-, he⟩ |
    ⟨item, completeStopped, l₁, l₂, hitems, hdue, he⟩
  · rw [he] at hinv ⊢
    exact ⟨hinv, h.before, h.enqueued, h.gone, h.order⟩
  · rw [he] at hinv ⊢
    exact ⟨hinv, h.before, h.enqueued, h.gone, h.order⟩
  · rw [he] at hinv ⊢
    have hfewer : ∀ z, z ∈ l₁ ++ l₂ → z ∈ s.shared.items := by
      intro z hz
      rw [hitems]
      rcases List.mem_append.mp hz with hz | hz
      · exact List.mem_append_left _ hz
      · exact List.mem_append_right _ (List.mem_cons_of_mem item hz)
    have htaken : ∀ c, c ∈ s.taken ++ [(item, completeStopped)] →
        c ∈ s.taken ∨ c = (item, completeStopped) := by
      intro c hc
      rcases List.mem_append.mp hc with hc | hc
      · exact .inl hc
      · exact .inr (List.mem_singleton.mp hc)
    refine ⟨hinv, h.before, h.enqueued, ?_, ?_⟩
    · intro hy hx
      simp only [State.taken, List.map_append] at hy
      rcases htaken _ hy with hy | hy
      · exact h.gone hy (hfewer x hx)
      · cases hy
        exact h.before.not_due h.inv hitems (hdue rfl) hxy (hfewer x hx)
    · intro hx hy
      simp only [State.taken, List.map_append] at hx hy ⊢
      rcases htaken _ hx with hx' | hx'
      · rcases htaken _ hy with hy' | hy'
        · exact (h.order hx' hy').trans (List.sublist_append_left _ _)
        · rw [← List.singleton_append]
          exact (List.singleton_sublist.mpr hx').append (by rw [hy']; exact List.Sublist.refl _)
      · rcases htaken _ hy with hy' | hy'
        · -- `y` was taken before, so `x` had left the queue by then
          cases hx'
          exact absurd (by rw [hitems]; exact List.mem_append_right _ List.mem_cons_self)
            (h.gone hy')
        · cases hx'
          cases hy'
          exact absurd rfl hxy

theorem ordered_step (h : Ordered x y s) (hxy : x ≠ y) {l : Label} (hs : step s l = some s') :
    Ordered x y s' := by
  have hinv := inv_step h.inv hs
  cases l with
  | enqueue item throws =>
    simp only [step, Option.ite_none_right_eq_some, Option.some.injEq] at hs
    obtain ⟨hf, rfl⟩ := hs
    rcases s.enqueue_cases item throws with he | ⟨-, he⟩
    · rw [he]
      exact h
    · rw [he] at hinv ⊢
      refine ⟨hinv, ?_, List.mem_append_left _ h.enqueued, ?_, h.order⟩
      · rcases h.before with hb | ⟨hb, hsub⟩
        · exact .inl hb
        · exact .inr ⟨hb, hsub.trans (List.sublist_append_left _ _)⟩
      · intro hy hx
        rcases List.mem_append.mp hx with hx | hx
        · exact h.gone hy hx
        · rw [List.mem_singleton.mp hx] at h
          exact hf (List.mem_map_of_mem h.enqueued)
  | requestItemStop id =>
    cases hs
    exact ⟨hinv, h.before, h.enqueued, h.gone, h.order⟩
  | discardItem id =>
    cases hs
    rcases s.discardItem_cases id with he | ⟨item, l₁, l₂, hitems, he⟩
    · rw [he]
      exact h
    · rw [he] at hinv ⊢
      refine ⟨hinv, h.before, h.enqueued, ?_, h.order⟩
      intro hy hx
      apply h.gone hy
      rw [hitems]
      rcases List.mem_append.mp hx with hx | hx
      · exact List.mem_append_left _ hx
      · exact List.mem_append_right _ (List.mem_cons_of_mem item hx)
  | shutdown =>
    cases hs
    exact ⟨hinv, h.before, h.enqueued, h.gone, h.order⟩
  | iterate now =>
    simp only [step, Option.ite_none_right_eq_some, Option.some.injEq] at hs
    obtain ⟨⟨hw, -⟩, rfl⟩ := hs
    exact ordered_iterate h hxy hw now
  | deliver =>
    simp only [step] at hs
    split at hs
    · cases hs
      exact ⟨hinv, h.before, h.enqueued, h.gone, h.order⟩
    · cases hs
  | account =>
    simp only [step] at hs
    split at hs
    · cases hs
      exact ⟨hinv, h.before, h.enqueued, h.gone, h.order⟩
    · cases hs

theorem Inv.ordered (h : Inv s) (hx : x ∈ s.shared.items) (hy : y ∈ s.shared.items)
    (hb : Before s x y) : Ordered x y s :=
  ⟨h, hb, h.sub.subset hx, fun ht => absurd ht (h.not_taken hy false),
    fun ht => absurd ht (h.not_taken hx false)⟩

/-- What was taken in order and has been delivered, was delivered in order. -/
theorem Inv.delivered_in_order (h : Inv s) {a b : Item × Bool} (hb : b ∈ s.delivered)
    (hab : [a, b].Sublist s.taken) : [a, b].Sublist s.delivered := by
  have hn : (s.delivered ++ s.worker.hand).Nodup := by
    rw [← h.hand]
    exact h.taken_nodup.of_map
  rw [h.hand] at hab
  obtain ⟨l₁, l₂, he, h₁, h₂⟩ := List.sublist_append_iff.mp hab
  cases hl : l₂.getLast? with
  | none =>
    rw [List.getLast?_eq_none_iff.mp hl, List.append_nil] at he
    rwa [he]
  | some c =>
    have hc : c = b := by
      have hlast := congrArg List.getLast? he
      rw [List.getLast?_append, hl] at hlast
      simpa using hlast.symm
    have hm : b ∈ s.worker.hand := h₂.subset (hc ▸ List.mem_of_getLast? hl)
    exact absurd rfl ((List.nodup_append.mp hn).2.2 b hb b hm)

/-! ## Stopped items -/

/-- What holds along a run once a stop of `x` or a shutdown was recorded while `x` was
queued. -/
structure Doomed (x : Item) (s : State) : Prop where
  inv : Inv s
  enqueued : x ∈ s.enqueued
  recorded : s.shared.stop = true ∨ s.shared.stopRequested x.id = true
  noValue : (x, false) ∉ s.taken

theorem Doomed.iterate (h : Doomed x s) (hw : s.worker = .iterating) (now : ℤ) :
    Doomed x (s.iterate now) := by
  have hinv := inv_iterate h.inv hw now
  rcases s.iterate_cases now with ⟨-, -, he⟩ | ⟨-, he⟩ |
    ⟨item, completeStopped, l₁, l₂, hitems, hdue, he⟩
  · rw [he] at hinv ⊢
    exact ⟨hinv, h.enqueued, h.recorded, h.noValue⟩
  · rw [he] at hinv ⊢
    exact ⟨hinv, h.enqueued, h.recorded, h.noValue⟩
  · rw [he] at hinv ⊢
    refine ⟨hinv, h.enqueued, h.recorded, ?_⟩
    intro hm
    simp only [State.taken, List.map_append] at hm
    rcases List.mem_append.mp hm with hm | hm
    · exact h.noValue hm
    · cases List.mem_singleton.mp hm
      have hd := hdue rfl
      rcases h.recorded with hr | hr
      · rw [hd.running] at hr
        cases hr
      · rw [hd.unstopped _ (by rw [hitems]; exact List.mem_append_right _ List.mem_cons_self)] at hr
        cases hr

theorem doomed_step (h : Doomed x s) {l : Label} (hs : step s l = some s') : Doomed x s' := by
  have hinv := inv_step h.inv hs
  cases l with
  | enqueue item throws =>
    simp only [step, Option.ite_none_right_eq_some, Option.some.injEq] at hs
    obtain ⟨-, rfl⟩ := hs
    rcases s.enqueue_cases item throws with he | ⟨-, he⟩
    · rw [he]
      exact h
    · rw [he] at hinv ⊢
      exact ⟨hinv, List.mem_append_left _ h.enqueued, h.recorded, h.noValue⟩
  | requestItemStop id =>
    cases hs
    refine ⟨hinv, h.enqueued, ?_, h.noValue⟩
    rcases h.recorded with hr | hr
    · exact .inl hr
    · right
      by_cases hid : x.id = id
      · simp [Shared.requestItemStop, hid]
      · simpa [Shared.requestItemStop, Function.update_of_ne hid] using hr
  | discardItem id =>
    cases hs
    rcases s.discardItem_cases id with he | ⟨item, l₁, l₂, hitems, he⟩
    · rw [he]
      exact h
    · rw [he] at hinv ⊢
      exact ⟨hinv, h.enqueued, h.recorded, h.noValue⟩
  | shutdown =>
    cases hs
    exact ⟨hinv, h.enqueued, .inl rfl, h.noValue⟩
  | iterate now =>
    simp only [step, Option.ite_none_right_eq_some, Option.some.injEq] at hs
    obtain ⟨⟨hw, -⟩, rfl⟩ := hs
    exact h.iterate hw now
  | deliver =>
    simp only [step] at hs
    split at hs
    · cases hs
      exact ⟨hinv, h.enqueued, h.recorded, h.noValue⟩
    · cases hs
  | account =>
    simp only [step] at hs
    split at hs
    · cases hs
      exact ⟨hinv, h.enqueued, h.recorded, h.noValue⟩
    · cases hs

/-- Where a stopped item can be. -/
theorem Doomed.fate (h : Doomed x s) : (x, false) ∉ s.delivered ∧
    (x ∈ s.shared.items ∨ s.worker = .delivering x true ∨ (x, true) ∈ s.delivered ∨
      x ∈ s.discarded) := by
  have hhand := h.inv.hand
  refine ⟨fun hm => h.noValue (by rw [hhand]; exact List.mem_append_left _ hm), ?_⟩
  rcases h.inv.mem_parts h.enqueued with hm | ⟨c, hm⟩ | hm
  · exact .inl hm
  · cases c with
    | false => exact absurd hm h.noValue
    | true =>
      rw [hhand] at hm
      rcases List.mem_append.mp hm with hm | hm
      · exact .inr (.inr (.inl hm))
      · right
        left
        revert hm
        cases s.worker with
        | delivering item c =>
          simp only [Worker.hand, List.mem_singleton, Prod.mk.injEq, Worker.delivering.injEq]
          exact fun he => ⟨he.1.symm, he.2.symm⟩
        | _ => simp [Worker.hand]
  · exact .inr (.inr (.inr hm))

/-! ## Shutdown -/

theorem shutdown_step (h : s.shared.stop = true) {l : Label} (hs : step s l = some s') :
    s'.shared.stop = true ∧ s'.enqueued = s.enqueued := by
  cases l with
  | enqueue item throws =>
    simp only [step, Option.ite_none_right_eq_some, Option.some.injEq] at hs
    obtain ⟨-, rfl⟩ := hs
    rcases s.enqueue_cases item throws with he | ⟨hstop, -⟩
    · rw [he]
      exact ⟨h, rfl⟩
    · rw [h] at hstop
      cases hstop
  | requestItemStop id =>
    cases hs
    exact ⟨h, rfl⟩
  | discardItem id =>
    cases hs
    rcases s.discardItem_cases id with he | ⟨item, l₁, l₂, -, he⟩
    · rw [he]
      exact ⟨h, rfl⟩
    · rw [he]
      exact ⟨h, rfl⟩
  | shutdown =>
    cases hs
    exact ⟨rfl, rfl⟩
  | iterate now =>
    simp only [step, Option.ite_none_right_eq_some, Option.some.injEq] at hs
    obtain ⟨-, rfl⟩ := hs
    rcases s.iterate_cases now with ⟨-, -, he⟩ | ⟨-, he⟩ | ⟨item, c, l₁, l₂, -, -, he⟩
    · rw [he]
      exact ⟨h, rfl⟩
    · rw [he]
      exact ⟨h, rfl⟩
    · rw [he]
      exact ⟨h, rfl⟩
  | deliver =>
    simp only [step] at hs
    split at hs
    · cases hs
      exact ⟨h, rfl⟩
    · cases hs
  | account =>
    simp only [step] at hs
    split at hs
    · cases hs
      exact ⟨h, rfl⟩
    · cases hs

theorem shutdown_run (h : s.shared.stop = true) {ls : List Label}
    (hs : run step s ls = some s') : s'.enqueued = s.enqueued := by
  have hp := run_preserves
    (P := fun u : State => u.shared.stop = true ∧ u.enqueued = s.enqueued) ?_ ⟨h, rfl⟩ hs
  · exact hp.2
  · rintro u a v ⟨hu, hg⟩ hv
    obtain ⟨hu', hg'⟩ := shutdown_step hu hv
    exact ⟨hu', hg'.trans hg⟩

/-- A worker without a step to take has exited and delivered what was not discarded. -/
theorem Inv.drained (h : Inv s)
    (hidle : ∀ l, Label.ofWorker l = true → step s l = none) :
    s.worker = .exited ∧ s.shared.items = [] ∧
      ∀ x ∈ s.enqueued, (∃ c, (x, c) ∈ s.delivered) ∨ x ∈ s.discarded := by
  have hw : s.worker = .exited := by
    cases hw : s.worker with
    | iterating =>
      have hi := hidle (.iterate s.clock) rfl
      simp [step, hw] at hi
    | delivering item c =>
      have hi := hidle .deliver rfl
      simp [step, hw] at hi
    | accounting item =>
      have hi := hidle .account rfl
      simp [step, hw] at hi
    | exited => rfl
  have hnil := (h.exited hw).2
  refine ⟨hw, hnil, ?_⟩
  intro x hx
  rcases h.mem_parts hx with hm | ⟨c, hm⟩ | hm
  · rw [hnil] at hm
    cases hm
  · rw [h.hand, hw] at hm
    exact .inl ⟨c, by simpa [Worker.hand] using hm⟩
  · exact .inr hm

/-- A bound on the steps that the worker takes after a shutdown. -/
def State.work (s : State) : ℕ :=
  3 * s.shared.items.length + match s.worker with
    | .iterating => 1
    | .delivering _ _ => 3
    | .accounting _ => 2
    | .exited => 0

theorem work_step (hstop : s.shared.stop = true) {l : Label} (hl : l.ofWorker = true)
    (hs : step s l = some s') : s'.work < s.work := by
  cases l with
  | iterate now =>
    simp only [step, Option.ite_none_right_eq_some, Option.some.injEq] at hs
    obtain ⟨⟨hw, -⟩, rfl⟩ := hs
    rcases s.iterate_cases now with ⟨-, -, he⟩ | ⟨hrun, -⟩ | ⟨item, c, l₁, l₂, hitems, -, he⟩
    · rw [he]
      simp [State.work, hw]
    · rw [hstop] at hrun
      cases hrun
    · rw [he]
      simp only [State.work, hw, hitems, List.length_append, List.length_cons]
      omega
  | deliver =>
    simp only [step] at hs
    split at hs
    · next hw =>
      cases hs
      simp [State.work, hw]
    · cases hs
  | account =>
    simp only [step] at hs
    split at hs
    · next hw =>
      cases hs
      simp [State.work, hw, Shared.account]
    · cases hs
  | _ => cases hl

/-! ## The guarantee -/

structure DeliversInOrder (s : State) : Prop where
  once : (s.delivered.map Prod.fst).Nodup
  /-- Each delivery was decided by one iteration of the worker. -/
  decided : ∃ rest, s.turns.map (fun turn => (turn.item, turn.completeStopped)) = s.delivered ++ rest
  /-- An iteration that delivers with a value found the item due and first by deadline and
  then by enqueue, and neither a shutdown nor a stop request. -/
  value : ∀ turn ∈ s.turns, turn.completeStopped = false →
    turn.item ∈ turn.saw.items ∧ turn.item.deadline ≤ turn.now ∧
    (∀ z ∈ turn.saw.items, z = turn.item ∨ Before s turn.item z) ∧
    turn.saw.stop = false ∧ ∀ z ∈ turn.saw.items, turn.saw.stopRequested z.id = false
  order : ∀ x ∈ s.shared.items, ∀ y ∈ s.shared.items, x ≠ y → Before s x y →
    ∀ ls s', run step s ls = some s' → (x, false) ∈ s'.delivered → (y, false) ∈ s'.delivered →
    [(x, false), (y, false)].Sublist s'.delivered
  stopped : ∀ x ∈ s.shared.items, s.shared.stop = true ∨ s.shared.stopRequested x.id = true →
    ∀ ls s', run step s ls = some s' → (x, false) ∉ s'.delivered ∧
      (x ∈ s'.shared.items ∨ s'.worker = .delivering x true ∨ (x, true) ∈ s'.delivered ∨
        x ∈ s'.discarded)
  closed : s.shared.stop = true → ∀ ls s', run step s ls = some s' → s'.enqueued = s.enqueued
  exited : s.worker = .exited → s.shared.stop = true ∧ s.shared.items = []
  /-- After a shutdown the worker comes to its exit and leaves nothing undelivered. -/
  drains : s.shared.stop = true →
    (∀ ls s', (∀ l ∈ ls, Label.ofWorker l = true) → run step s ls = some s' → ls.length ≤ s.work) ∧
    ((∀ l, Label.ofWorker l = true → step s l = none) → s.worker = .exited ∧
      s.shared.items = [] ∧ ∀ x ∈ s.enqueued, (∃ c, (x, c) ∈ s.delivered) ∨ x ∈ s.discarded)

/-- In an iteration that is due, every other item comes later. -/
theorem Shared.Due.before_others {t : Shared} {now : ℤ} {item : Item} {l₁ l₂ : List Item}
    (h : t.Due now item l₁ l₂) (hitems : t.items = l₁ ++ item :: l₂)
    (hsub : t.items.Sublist s.enqueued) (z : Item) (hz : z ∈ t.items) :
    z = item ∨ Before s item z := by
  rw [hitems] at hz hsub
  rcases List.mem_append.mp hz with hz | hz
  · exact .inr (.inl (h.before z hz))
  · rcases List.mem_cons.mp hz with hz | hz
    · exact .inl hz
    · rcases (h.behind z hz).lt_or_eq with hlt | heq
      · exact .inr (.inl hlt)
      · refine .inr (.inr ⟨heq, List.Sublist.trans ?_ hsub⟩)
        refine List.Sublist.trans ?_ (List.sublist_append_right l₁ _)
        exact (List.singleton_sublist.mpr hz).cons_cons item

/-- The timer context delivers each item at most once, in the order of the deadlines, and
never with a value after a stop or a shutdown was recorded for it in the queue. -/
theorem timer_delivers_in_order (h : Reachable step Initial s) : DeliversInOrder s := by
  have hi := reachable_inv h
  refine ⟨?_, ⟨_, hi.hand⟩, ?_, ?_, ?_, ?_, hi.exited, ?_⟩
  · have hn := hi.taken_nodup
    rw [hi.hand, List.map_append] at hn
    exact (List.nodup_append.mp hn).1
  · intro turn hm hv
    obtain ⟨hsub, hdue⟩ := hi.turns turn hm
    obtain ⟨l₁, l₂, hitems, hd⟩ := hdue hv
    refine ⟨?_, hd.due, fun z hz => hd.before_others hitems hsub z hz, hd.running, hd.unstopped⟩
    rw [hitems]
    exact List.mem_append_right _ List.mem_cons_self
  · intro x hx y hy hxy hb ls s' hrun hdx hdy
    have ho := run_preserves (P := Ordered x y) (fun _ _ _ ho hs => ordered_step ho hxy hs)
      (hi.ordered hx hy hb) hrun
    have hmem : ∀ {c}, c ∈ s'.delivered → c ∈ s'.taken := by
      intro c hc
      rw [ho.inv.hand]
      exact List.mem_append_left _ hc
    exact ho.inv.delivered_in_order hdy (ho.order (hmem hdx) (hmem hdy))
  · intro x hx hr ls s' hrun
    have hd : Doomed x s := ⟨hi, hi.sub.subset hx, hr, hi.not_taken hx false⟩
    exact (run_preserves (P := Doomed x) (fun _ _ _ hd hs => doomed_step hd hs) hd hrun).fate
  · intro hstop ls s' hrun
    exact shutdown_run hstop hrun
  · intro hstop
    refine ⟨?_, hi.drained⟩
    intro ls s' hls hrun
    have hle := run_length_le (P := fun u : State => u.shared.stop = true)
      (Q := fun l => Label.ofWorker l = true)
      (fun u a v hu ha hs => ⟨(shutdown_step hu hs).1, work_step hu ha hs⟩) hstop hls hrun
    omega

/-- Four items with two equal deadlines: the later deadline waits, the equal ones are
delivered in the order of their enqueue, and a stop and a shutdown take the others. -/
theorem timer_delivers_in_order_mixed : ∃ s : State, Reachable step Initial s ∧
    s.delivered = [(⟨1, 5⟩, false), (⟨2, 5⟩, false), (⟨3, 2⟩, true), (⟨0, 9⟩, true)] ∧
    s.discarded = [⟨4, 7⟩] ∧ s.worker = .exited ∧ DeliversInOrder s := by
  obtain ⟨s, hs, h1, h2, h3⟩ : ∃ s : State,
      run step { clock := 0 } [.enqueue ⟨0, 9⟩ false, .enqueue ⟨1, 5⟩ false, .enqueue ⟨2, 5⟩ false,
        .iterate 3, .iterate 6, .deliver, .enqueue ⟨4, 7⟩ false, .account, .iterate 6, .deliver,
        .account, .discardItem 4, .enqueue ⟨3, 2⟩ false, .requestItemStop 3, .iterate 6, .deliver,
        .shutdown, .enqueue ⟨6, 1⟩ false, .account, .iterate 7, .deliver, .account, .iterate 7] =
        some s ∧
      s.delivered = [(⟨1, 5⟩, false), (⟨2, 5⟩, false), (⟨3, 2⟩, true), (⟨0, 9⟩, true)] ∧
      s.discarded = [⟨4, 7⟩] ∧ s.worker = .exited := ⟨_, rfl, rfl, rfl, rfl⟩
  have hr : Reachable step Initial s := ⟨_, ⟨0, rfl⟩, _, hs⟩
  exact ⟨s, hr, h1, h2, h3, timer_delivers_in_order hr⟩

end CCForge.Timer
