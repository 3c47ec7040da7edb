import CCForge.FrameChain.Arbitration
import CCForge.Lib.Threads

/-!
# The phases of a chain of tasks

One thread at most executes the coroutines of a chain. What it does, with the bridge and the
operation of the last sender, makes a phase of the chain; an abandonment depends on no more than
that. Each step of a thread inside of a resume takes the chain from a phase to the next one.
-/

namespace CCForge.FrameChain.Arbitration

/-! ## The phases of a chain -/

/-- What the threads, the bridge and the operation of the last sender make of the chain. -/
inductive Phase where
  | unstarted
  | launching (thread : ThreadId)
  | running (thread : ThreadId) (passing : Bool)
  | published (thread : ThreadId) (generation : ℕ) (claimed : Bool)
  | connecting (thread : ThreadId) (generation : ℕ) (claimed : Bool)
  | connected (thread : ThreadId) (generation : ℕ) (claimed : Bool)
  /-- Suspended, with the thread that calls the receiver. -/
  | parked (generation : ℕ) (call : Option ThreadId)
  /-- Suspended for ever. -/
  | claimed (generation : ℕ) (signalled : Bool) (call : Option ThreadId)
  /-- The thread is going to resume the chain. -/
  | granted (generation : ℕ) (thread : ThreadId)
  /-- The thread is in the `start` that the operation completed in. -/
  | completedInline (thread : ThreadId) (generation : ℕ)
  | resumed (thread : ThreadId) (generation : ℕ)
  | finalized
  | gone

namespace Phase

def bridge : Phase → Option BridgeToken
  | published _ g c | connecting _ g c | connected _ g c =>
    some ⟨g, if c then .abandoned else .starting⟩
  | parked g _ => some ⟨g, .suspended⟩
  | claimed g _ _ => some ⟨g, .abandoned⟩
  | granted g _ | completedInline _ g | resumed _ g => some ⟨g, .completed⟩
  | unstarted | launching _ | running _ _ | finalized | gone => none

def op : Phase → Option Op
  | connected _ g _ => some ⟨g, false, false⟩
  | parked g call => some ⟨g, true, call.isSome⟩
  | claimed g signalled _ => some ⟨g, true, signalled⟩
  | granted g _ | completedInline _ g | resumed _ g => some ⟨g, true, true⟩
  | _ => none

def delivery : Phase → Option Delivery
  | parked g call | claimed g _ call => call.map fun u => ⟨g, u, false⟩
  | granted g u => some ⟨g, u, true⟩
  | _ => none

def launcher : Phase → Option ThreadId
  | launching t => some t
  | _ => none

/-- The thread that executes the coroutine, and where. -/
def driver : Phase → Option (ThreadId × Pc)
  | running t passing => some (t, if passing then .passing else .body)
  | published t g _ => some (t, .published g)
  | connecting t g _ => some (t, .connecting g)
  | connected t g _ => some (t, .connected g)
  | completedInline t g => some (t, .starting g true)
  | resumed t g => some (t, .resumed g)
  | _ => none

/-- The generation of the bridge, and whether it completed. -/
def generation : Phase → Option (ℕ × Bool)
  | published _ g _ | connecting _ g _ | connected _ g _ | parked g _ | claimed g _ _ =>
    some (g, false)
  | granted g _ | completedInline _ g | resumed _ g => some (g, true)
  | _ => none

/-- The generation of a bridge that completed and has not resumed the chain. -/
def pending : Phase → Option ℕ
  | granted g _ | completedInline _ g => some g
  | _ => none

/-- No bridge of the phase can complete any more once `abandoning` is stored. -/
def sealed : Phase → Bool
  | connecting _ _ c | connected _ _ c => c
  | parked _ _ | granted _ _ | completedInline _ _ | resumed _ _ => false
  | _ => true

/-- Nothing executes the coroutine, or ever will when the chain is abandoned. -/
def atRest : Phase → Bool
  | unstarted | claimed _ _ _ | finalized | gone => true
  | _ => false

end Phase

/-- A thread there does not execute the coroutine. -/
def Pc.passive : Pc → Bool
  | outside | unwinding | callback | starting _ false => true
  | _ => false

/-- The driver executes the coroutine, and no other thread does. -/
def Drives (pc : ThreadId → Pc) : Option (ThreadId × Pc) → Prop
  | none => ∀ t, (pc t).passive = true
  | some (u, p) => pc u = p ∧ ∀ t, t ≠ u → (pc t).passive = true

namespace Drives

variable {pc : ThreadId → Pc} {d : Option (ThreadId × Pc)} {t : ThreadId} {p : Pc}

theorem of_active (h : Drives pc d) (ht : pc t = p) (hp : p.passive = false) : d = some (t, p) := by
  cases d with
  | none =>
    have := h t
    rw [ht, hp] at this
    cases this
  | some up =>
    obtain ⟨u, q⟩ := up
    by_cases hu : t = u
    · subst hu
      rw [← ht, h.1]
    · have := h.2 t hu
      rw [ht, hp] at this
      cases this

/-- The driver goes on, or a thread becomes the driver where none was. -/
theorem take (h : Drives pc d) (hd : ∀ u q, d = some (u, q) → u = t) :
    Drives (Function.update pc t p) (some (t, p)) := by
  refine ⟨Function.update_self _ _ _, fun u hu => ?_⟩
  rw [Function.update_of_ne hu]
  -- no other thread drives, since the driver was this one or there was none
  cases d with
  | none => exact h u
  | some up =>
    obtain ⟨v, q⟩ := up
    cases hd v q rfl
    exact h.2 u hu

theorem release (h : Drives pc d) (hd : ∀ u q, d = some (u, q) → u = t) (hp : p.passive = true) :
    Drives (Function.update pc t p) none := by
  intro u
  by_cases hu : u = t
  · subst hu
    rwa [Function.update_self]
  · have := (h.take (p := p) hd).2 u hu
    exact this

/-- A thread moves that is not the driver. -/
theorem keep (h : Drives pc d) (hd : ∀ u q, d = some (u, q) → u ≠ t) (hp : p.passive = true) :
    Drives (Function.update pc t p) d := by
  cases d with
  | none => exact h.release (by rintro u q ⟨⟩) hp
  | some up =>
    obtain ⟨u, q⟩ := up
    have hut := hd u q rfl
    refine ⟨by rw [Function.update_of_ne hut]; exact h.1, fun v hv => ?_⟩
    by_cases hvt : v = t
    · subst hvt
      rwa [Function.update_self]
    · rw [Function.update_of_ne hvt]
      exact h.2 v hv

end Drives

/-- The state is in the phase. -/
structure Agrees (s : State) (ph : Phase) : Prop where
  bridge : s.activeBridge = ph.bridge
  op : s.op = ph.op
  delivery : s.delivery = ph.delivery
  launcher : s.launcher = ph.launcher
  control : Drives s.pc ph.driver
  started : s.started = false → ph = .unstarted ∨ ph = .gone
  finalized : s.finalized = true → ph = .finalized ∨ ph = .gone
  callback : ∀ t, s.pc t = .callback → s.finalized = true

/-- The thread is in an abandonment that has not decided yet. -/
structure Undecided (s : State) : Prop where
  abandoning : s.abandoning = true
  deferredDestroy : s.deferredDestroy = false
  alive : s.frames = .alive
  launcher : s.launcher = none

structure Quiet (s : State) (ph : Phase) : Prop where
  atRest : ph.atRest = true
  resumeCount : s.resumeCount = 0

/-- What holds at each point of an abandonment. -/
def Arbitrated (s : State) (ph : Phase) : Prop :=
  match s.abandoner with
  | .idle => s.abandoning = false ∧ s.deferredDestroy = false ∧ s.frames = .alive
  | .announced t => Undecided s ∧ ((s.pc t).scoped = true → ph.sealed = true)
  | .checking _ | .loading _ | .claiming _ _ => Undecided s
  | .waiting _ gate | .waitingFinalized _ gate => Undecided s ∧ s.won gate.generation = true
  | .counting _ | .draining _ => Undecided s ∧ ph.sealed = true
  | .deferred => s.abandoning = true ∧ s.deferredDestroy = true ∧ s.launcher = none ∧
      ph.sealed = true ∧ (s.frames = .alive → 0 < s.resumeCount) ∧ (s.frames ≠ .alive → Quiet s ph)
  | .ended => s.frames ≠ .alive ∧ s.launcher = none ∧ Quiet s ph

section

variable {s : State} {ph : Phase} {t : ThreadId}

theorem arbitrated_idle (h : s.abandoner = .idle) : Arbitrated s ph ↔
    s.abandoning = false ∧ s.deferredDestroy = false ∧ s.frames = .alive := by
  unfold Arbitrated
  rw [h]

theorem arbitrated_announced (h : s.abandoner = .announced t) : Arbitrated s ph ↔
    Undecided s ∧ ((s.pc t).scoped = true → ph.sealed = true) := by
  unfold Arbitrated
  rw [h]

theorem arbitrated_deferred (h : s.abandoner = .deferred) : Arbitrated s ph ↔
    s.abandoning = true ∧ s.deferredDestroy = true ∧ s.launcher = none ∧ ph.sealed = true ∧
      (s.frames = .alive → 0 < s.resumeCount) ∧ (s.frames ≠ .alive → Quiet s ph) := by
  unfold Arbitrated
  rw [h]

theorem arbitrated_ended (h : s.abandoner = .ended) : Arbitrated s ph ↔
    s.frames ≠ .alive ∧ s.launcher = none ∧ Quiet s ph := by
  unfold Arbitrated
  rw [h]

/-- No abandonment, one on its way, one that is left to the last resume, or one that is over. -/
theorem Arbitrated.cases (h : Arbitrated s ph) :
    (s.abandoner = .idle ∧ s.abandoning = false ∧ s.deferredDestroy = false ∧ s.frames = .alive) ∨
    (s.abandoner.thread.isSome = true ∧ Undecided s) ∨
    (s.abandoner = .deferred ∧ s.abandoning = true ∧ s.deferredDestroy = true ∧
      s.launcher = none ∧ ph.sealed = true ∧ (s.frames = .alive → 0 < s.resumeCount) ∧
      (s.frames ≠ .alive → Quiet s ph)) ∨
    (s.abandoner = .ended ∧ s.frames ≠ .alive ∧ s.launcher = none ∧ Quiet s ph) := by
  unfold Arbitrated at h
  cases ha : s.abandoner with
  | idle =>
    rw [ha] at h
    exact .inl ⟨rfl, h⟩
  | checking t | loading t | claiming t gate =>
    rw [ha] at h
    exact .inr (.inl ⟨rfl, h⟩)
  | announced t | waiting t gate | waitingFinalized t gate | counting t | draining t =>
    rw [ha] at h
    exact .inr (.inl ⟨rfl, h.1⟩)
  | deferred =>
    rw [ha] at h
    exact .inr (.inr (.inl ⟨rfl, h⟩))
  | ended =>
    rw [ha] at h
    exact .inr (.inr (.inr ⟨rfl, h⟩))

end

/-- What happened to each bridge. -/
structure History (s : State) (ph : Phase) : Prop where
  won_le : ∀ g, s.won g = true → g ≤ s.nextBridgeGeneration
  generation : ∀ g c, ph.generation = some (g, c) → s.won g = c ∧ g ≤ s.nextBridgeGeneration
  resumes : ∀ g, s.resumes g = if s.won g = true ∧ ph.pending ≠ some g then 1 else 0

/-- Who is in a delivery, an abandonment or a destruction is in nothing else. -/
structure Engaged (s : State) : Prop where
  abandoner : ∀ d, s.delivery = some d → s.abandoner.thread ≠ some d.thread
  frames : ∀ d c, s.delivery = some d → s.frames ≠ .destroying d.thread c
  place : ∀ d, s.delivery = some d →
    s.pc d.thread = .outside ∨ s.pc d.thread = .starting d.generation false

structure Inv (s : State) (ph : Phase) : Prop where
  agrees : Agrees s ph
  scopes : Counted Pc.scoped s.pc s.resumeCount
  asleep : ph = .unstarted ∨ ph.launcher.isSome → s.resumeCount = 0
  gone : ph = .gone → s.frames ≠ .alive
  arbitrated : Arbitrated s ph
  history : History s ph
  engaged : Engaged s
  teardowns : s.teardowns = if s.frames = .alive then 0 else 1

variable {s : State} {ph ph' : Phase} {t : ThreadId} {p : Pc}

theorem free_spec (h : s.free t = true) :
    s.launcher ≠ some t ∧ (∀ d, s.delivery = some d → d.thread ≠ t) ∧
      s.abandoner.thread ≠ some t ∧ ∀ c, s.frames ≠ .destroying t c := by
  simp only [State.free, Bool.and_eq_true, bne_iff_ne, ne_eq] at h
  obtain ⟨⟨⟨hl, hd⟩, ha⟩, hf⟩ := h
  refine ⟨hl, fun d he => ?_, ha, fun c he => ?_⟩
  · rw [he] at hd
    simpa using hd
  · rw [he] at hf
    simp at hf

namespace Phase

variable {g : ℕ}

theorem of_body (h : ph.driver = some (t, .body)) : ph = .running t false := by
  cases ph with
  | running u passing => cases passing <;> simp_all [driver]
  | _ => simp [driver] at h

theorem of_passing (h : ph.driver = some (t, .passing)) : ph = .running t true := by
  cases ph with
  | running u passing => cases passing <;> simp_all [driver]
  | _ => simp [driver] at h

theorem of_published (h : ph.driver = some (t, .published g)) : ∃ c, ph = .published t g c := by
  cases ph with
  | running u passing => cases passing <;> simp [driver] at h
  | _ => simp_all [driver]

theorem of_connecting (h : ph.driver = some (t, .connecting g)) : ∃ c, ph = .connecting t g c := by
  cases ph with
  | running u passing => cases passing <;> simp [driver] at h
  | _ => simp_all [driver]

theorem of_connected (h : ph.driver = some (t, .connected g)) : ∃ c, ph = .connected t g c := by
  cases ph with
  | running u passing => cases passing <;> simp [driver] at h
  | _ => simp_all [driver]

theorem of_starting (h : ph.driver = some (t, .starting g true)) : ph = .completedInline t g := by
  cases ph with
  | running u passing => cases passing <;> simp [driver] at h
  | _ => simp_all [driver]

theorem of_resumed (h : ph.driver = some (t, .resumed g)) : ph = .resumed t g := by
  cases ph with
  | running u passing => cases passing <;> simp [driver] at h
  | _ => simp_all [driver]

end Phase

/-! ## Threads inside of a resume -/

/-- Inside of a resume the chain is alive. -/
theorem Inv.awake (h : Inv s ph) (hs : (s.pc t).scoped = true) :
    s.started = true ∧ s.frames = .alive ∧ s.launcher = none := by
  have hpos := h.scopes.pos hs
  have halive : s.frames = .alive := by
    by_contra hf
    rcases h.arbitrated.cases with ha | ⟨_, ha⟩ | ha | ha
    · exact hf ha.2.2.2
    · exact hf ha.alive
    · have := (ha.2.2.2.2.2.2 hf).resumeCount
      omega
    · have := ha.2.2.2.resumeCount
      omega
  refine ⟨?_, halive, ?_⟩
  · by_contra hst
    rcases h.agrees.started (by simpa using hst) with hph | hph
    · have := h.asleep (.inl hph)
      omega
    · exact h.gone hph halive
  · rw [h.agrees.launcher]
    cases hl : ph.launcher with
    | none => rfl
    | some u =>
      have := h.asleep (.inr (by rw [hl]; rfl))
      omega

/-- A step that an abandonment does not see, unless it seals the chain or is on its thread. -/
theorem Arbitrated.frame {s' : State} (h : Arbitrated s ph)
    (ha : s'.abandoner = s.abandoner) (hab : s'.abandoning = s.abandoning)
    (hde : s'.deferredDestroy = s.deferredDestroy) (hfr : s'.frames = s.frames)
    (hla : s.launcher = none → s'.launcher = none)
    (hwon : ∀ g, s.won g = true → s'.won g = true)
    (hpc : ∀ u, s.abandoner.thread = some u → s'.pc u = s.pc u)
    (hseal : s.abandoning = true → ph.sealed = true → ph'.sealed = true)
    (hcount : s.deferredDestroy = true → 0 < s.resumeCount → 0 < s'.resumeCount)
    (hquiet : s.frames ≠ .alive → Quiet s ph → Quiet s' ph') : Arbitrated s' ph' := by
  have hund : Undecided s → Undecided s' := fun hu =>
    ⟨hab.trans hu.abandoning, hde.trans hu.deferredDestroy, hfr.trans hu.alive, hla hu.launcher⟩
  unfold Arbitrated at h ⊢
  rw [ha]
  cases hs : s.abandoner with
  | idle =>
    rw [hs] at h
    exact ⟨hab.trans h.1, hde.trans h.2.1, hfr.trans h.2.2⟩
  | announced u =>
    rw [hs] at h
    refine ⟨hund h.1, ?_⟩
    rw [hpc u (by rw [hs]; rfl)]
    exact fun hsc => hseal h.1.abandoning (h.2 hsc)
  | checking u | loading u | claiming u gate =>
    rw [hs] at h
    exact hund h
  | waiting u gate | waitingFinalized u gate =>
    rw [hs] at h
    exact ⟨hund h.1, hwon _ h.2⟩
  | counting u | draining u =>
    rw [hs] at h
    exact ⟨hund h.1, hseal h.1.abandoning h.2⟩
  | deferred =>
    rw [hs] at h
    obtain ⟨h₁, h₂, h₃, h₄, h₅, h₆⟩ := h
    refine ⟨hab.trans h₁, hde.trans h₂, hla h₃, hseal h₁ h₄, ?_, ?_⟩
    · rw [hfr]
      exact fun hf => hcount h₂ (h₅ hf)
    · rw [hfr]
      exact fun hf => hquiet hf (h₆ hf)
  | ended =>
    rw [hs] at h
    rw [hfr]
    exact ⟨h.1, hla h.2.1, hquiet h.1 h.2.2⟩

theorem History.keep {s' : State} (h : History s ph) (hw : s'.won = s.won)
    (hr : s'.resumes = s.resumes) (hn : s'.nextBridgeGeneration = s.nextBridgeGeneration)
    (hg : ∀ x, ph'.generation = some x → ph.generation = some x)
    (hp : ph'.pending = ph.pending) : History s' ph' where
  won_le := by
    rw [hw, hn]
    exact h.won_le
  generation := by
    rw [hw, hn]
    exact fun g c hgc => h.generation g c (hg _ hgc)
  resumes := by
    rw [hw, hr, hp]
    exact h.resumes

theorem Engaged.move {s' : State} (h : Engaged s) (ht : ∀ d, s.delivery = some d → d.thread ≠ t)
    (hd : s'.delivery = s.delivery) (ha : s'.abandoner = s.abandoner)
    (hf : s'.frames = s.frames) (hp : s'.pc = Function.update s.pc t p) : Engaged s' where
  abandoner := by
    rw [hd, ha]
    exact h.abandoner
  frames := by
    rw [hd, hf]
    exact h.frames
  place := by
    rw [hd, hp]
    intro d hs
    rw [Function.update_of_ne (ht d hs)]
    exact h.place d hs

theorem callback_update {pc : ThreadId → Pc} {f : Bool} (h : ∀ u, pc u = .callback → f = true)
    (hp : p = .callback → f = true) (u : ThreadId) (hu : Function.update pc t p u = .callback) :
    f = true := by
  by_cases he : u = t
  · subst he
    rw [Function.update_self] at hu
    exact hp hu
  · rw [Function.update_of_ne he] at hu
    exact h u hu

/-- A thread inside of a resume goes on to another point there. -/
theorem Inv.moved {b : Option BridgeToken} {o : Option Op} {n : ℕ} {f : Bool} {r : ℕ → ℕ}
    (h : Inv s ph) (hfree : s.free t = true) (hs : (s.pc t).scoped = true)
    (hp : p.scoped = true) (hb : b = ph'.bridge) (ho : o = ph'.op)
    (hd : ph'.delivery = ph.delivery) (hl : ph'.launcher = none) (hu : ph' ≠ .unstarted)
    (hg : ph' ≠ .gone) (hc : Drives (Function.update s.pc t p) ph'.driver)
    (hfin : f = true → ph' = .finalized) (hkeep : s.finalized = true → f = true)
    (hcall : p = .callback → f = true)
    (hseal : s.abandoning = true → ph.sealed = true → ph'.sealed = true)
    (hhist : History { s with nextBridgeGeneration := n, resumes := r } ph') :
    Inv { s with
      pc := Function.update s.pc t p, activeBridge := b, op := o, nextBridgeGeneration := n
      finalized := f, resumes := r } ph' := by
  obtain ⟨hstarted, halive, hlauncher⟩ := h.awake hs
  obtain ⟨_, hdel, habn, _⟩ := free_spec hfree
  refine ⟨⟨hb, ho, h.agrees.delivery.trans hd.symm, hlauncher.trans hl.symm, hc, ?_, ?_,
    callback_update (fun u hu => hkeep (h.agrees.callback u hu)) hcall⟩, ?_, ?_,
    fun he => absurd he hg, ?_, ⟨hhist.won_le, hhist.generation, hhist.resumes⟩,
    h.engaged.move hdel rfl rfl rfl rfl, h.teardowns⟩
  · intro hst
    rw [show s.started = false from hst] at hstarted
    cases hstarted
  · exact fun hf => .inl (hfin hf)
  · exact h.scopes.keep (by rw [hp, hs])
  · rintro (he | he)
    · exact absurd he hu
    · rw [hl] at he
      cases he
  · refine h.arbitrated.frame rfl rfl rfl rfl id (fun _ => id) (fun u hu => ?_) hseal (fun _ => id)
      fun hf => absurd halive hf
    refine Function.update_of_ne ?_ _ _
    rintro rfl
    exact habn hu

/-- The thread moves, and the chain stays in its phase. -/
theorem Inv.stays (h : Inv s ph) (hfree : s.free t = true) (hs : (s.pc t).scoped = true)
    (hp : p.scoped = true) (hpassive : p.passive = true)
    (hd : ∀ u q, ph.driver = some (u, q) → u ≠ t) (hcall : p = .callback → s.finalized = true) :
    Inv (s.setPc t p) ph := by
  obtain ⟨hstarted, halive, hlauncher⟩ := h.awake hs
  obtain ⟨_, hdel, habn, _⟩ := free_spec hfree
  refine ⟨⟨h.agrees.bridge, h.agrees.op, h.agrees.delivery, h.agrees.launcher,
    h.agrees.control.keep hd hpassive, h.agrees.started, h.agrees.finalized,
    callback_update h.agrees.callback hcall⟩,
    h.scopes.keep (by rw [hp, hs]), h.asleep, h.gone, ?_,
    h.history.keep rfl rfl rfl (fun g hg => hg) rfl, h.engaged.move hdel rfl rfl rfl rfl,
    h.teardowns⟩
  refine h.arbitrated.frame rfl rfl rfl rfl id (fun _ => id) (fun u hu => ?_) (fun _ => id)
    (fun _ => id) fun hf => absurd halive hf
  refine Function.update_of_ne ?_ _ _
  rintro rfl
  exact habn hu

/-- A passive thread is not the driver. -/
theorem Agrees.not_driver (h : Agrees s ph) (hp : (s.pc t).passive = true) :
    ∀ u q, ph.driver = some (u, q) → u ≠ t := by
  rintro u q hd rfl
  have hc := h.control
  rw [hd] at hc
  rw [hc.1] at hp
  cases ph with
  | running v passing =>
    cases passing <;> simp only [Phase.driver, Option.some.injEq, Prod.mk.injEq] at hd <;>
      rw [← hd.2] at hp <;> cases hp
  | published v g c | connecting v g c | connected v g c | completedInline v g | resumed v g =>
    simp only [Phase.driver, Option.some.injEq, Prod.mk.injEq] at hd
    rw [← hd.2] at hp
    cases hp
  | _ => cases hd

theorem Inv.publish {g : ℕ} (h : Inv s ph) (hfree : s.free t = true) (hpc : s.pc t = .body)
    (hg : g = s.nextBridgeGeneration + 1) :
    Inv { s.setPc t (.published g) with
      nextBridgeGeneration := g, activeBridge := some ⟨g, .starting⟩ } (.published t g false) := by
  have hph := Phase.of_body (h.agrees.control.of_active hpc rfl)
  subst hph hg
  refine h.moved hfree (by rw [hpc]; rfl) rfl rfl h.agrees.op rfl rfl (by rintro ⟨⟩) (by rintro ⟨⟩)
    (h.agrees.control.take (by rintro u q ⟨⟩; rfl)) (fun hf => ?_) id (by rintro ⟨⟩)
    (fun _ _ => rfl) ?_
  · rcases h.agrees.finalized hf with he | he <;> cases he
  · refine ⟨fun g hg => ?_, ?_, h.history.resumes⟩
    · have := h.history.won_le g hg
      exact Nat.le_succ_of_le this
    · rintro g c ⟨⟩
      refine ⟨?_, Nat.le_refl _⟩
      by_contra hw
      have := h.history.won_le _ (by simpa using hw)
      omega

theorem Inv.checkAbandoning {g : ℕ} (h : Inv s ph) (hfree : s.free t = true)
    (hpc : s.pc t = .published g) : ∃ c,
    Inv { s.setPc t (.connecting g) with
      activeBridge :=
        if s.abandoning then (transitionBridge s.activeBridge g .abandoned).2 else s.activeBridge }
      (.connecting t g (c || s.abandoning)) := by
  obtain ⟨c, hph⟩ := Phase.of_published (h.agrees.control.of_active hpc rfl)
  subst hph
  refine ⟨c, h.moved hfree (by rw [hpc]; rfl) rfl ?_ h.agrees.op rfl rfl (by rintro ⟨⟩)
    (by rintro ⟨⟩) (h.agrees.control.take (by rintro u q ⟨⟩; rfl)) (fun hf => ?_)
    id (by rintro ⟨⟩) (fun ha _ => by rw [Phase.sealed, ha, Bool.or_true])
    (h.history.keep rfl rfl rfl (fun g hg => hg) rfl)⟩
  · rw [h.agrees.bridge]
    cases c <;> cases s.abandoning <;>
      simp [Phase.bridge, transitionBridge, bridgeTransitionAllowed]
  · rcases h.agrees.finalized hf with he | he <;> cases he

theorem Inv.connect {g : ℕ} (h : Inv s ph) (hfree : s.free t = true)
    (hpc : s.pc t = .connecting g) :
    ∃ ph', Inv { s.setPc t (.connected g) with op := some ⟨g, false, false⟩ } ph' := by
  obtain ⟨c, hph⟩ := Phase.of_connecting (h.agrees.control.of_active hpc rfl)
  subst hph
  refine ⟨.connected t g c, h.moved hfree (by rw [hpc]; rfl) rfl h.agrees.bridge rfl rfl rfl
    (by rintro ⟨⟩) (by rintro ⟨⟩) (h.agrees.control.take (by rintro u q ⟨⟩; rfl)) (fun hf => ?_)
    id (by rintro ⟨⟩) (fun _ => id) (h.history.keep rfl rfl rfl (fun g hg => hg) rfl)⟩
  rcases h.agrees.finalized hf with he | he <;> cases he

theorem Inv.connectThrows {g : ℕ} (h : Inv s ph) (hfree : s.free t = true)
    (hpc : s.pc t = .connecting g) :
    Inv { s.setPc t .body with activeBridge := clearBridge s.activeBridge g }
      (.running t false) := by
  obtain ⟨c, hph⟩ := Phase.of_connecting (h.agrees.control.of_active hpc rfl)
  subst hph
  refine h.moved hfree (by rw [hpc]; rfl) rfl ?_ h.agrees.op rfl rfl
    (by rintro ⟨⟩) (by rintro ⟨⟩) (h.agrees.control.take (by rintro u q ⟨⟩; rfl)) (fun hf => ?_)
    id (by rintro ⟨⟩) (fun _ _ => rfl) (h.history.keep rfl rfl rfl (by rintro g ⟨⟩) rfl)
  · rw [h.agrees.bridge]
    simp [Phase.bridge, clearBridge]
  · rcases h.agrees.finalized hf with he | he <;> cases he

theorem Inv.suspend {g : ℕ} (h : Inv s ph) (hfree : s.free t = true)
    (hpc : s.pc t = .connected g) :
    ∃ ph', Inv { s.setPc t (.starting g false) with
      activeBridge := (transitionBridge s.activeBridge g .suspended).2
      op := s.op.map fun op => { op with started := true } } ph' := by
  obtain ⟨c, hph⟩ := Phase.of_connected (h.agrees.control.of_active hpc rfl)
  subst hph
  have hnot : s.finalized = true → ¬ s.finalized = true := fun hf => by
    rcases h.agrees.finalized hf with he | he <;> cases he
  cases c with
  | false =>
    refine ⟨.parked g none, h.moved hfree (by rw [hpc]; rfl) rfl ?_ ?_ rfl rfl
      (by rintro ⟨⟩) (by rintro ⟨⟩) (h.agrees.control.release (by rintro u q ⟨⟩; rfl) rfl)
      (fun hf => absurd hf (hnot hf)) id (by rintro ⟨⟩) (fun _ => id)
      (h.history.keep rfl rfl rfl (fun g hg => hg) rfl)⟩
    · rw [h.agrees.bridge]
      simp [Phase.bridge, transitionBridge, bridgeTransitionAllowed]
    · rw [h.agrees.op]
      rfl
  | true =>
    refine ⟨.claimed g false none, h.moved hfree (by rw [hpc]; rfl) rfl ?_ ?_ rfl rfl
      (by rintro ⟨⟩) (by rintro ⟨⟩) (h.agrees.control.release (by rintro u q ⟨⟩; rfl) rfl)
      (fun hf => absurd hf (hnot hf)) id (by rintro ⟨⟩) (fun _ => id)
      (h.history.keep rfl rfl rfl (fun g hg => hg) rfl)⟩
    · rw [h.agrees.bridge]
      simp [Phase.bridge, transitionBridge, bridgeTransitionAllowed]
    · rw [h.agrees.op]
      rfl

/-- A resume for the bridge is in the history. -/
theorem History.resumeFor {g : ℕ} (h : History s ph) (hg : ph.generation = some (g, true))
    (hp : ph.pending = some g) :
    History { s with resumes := Function.update s.resumes g (s.resumes g + 1) } (.resumed t g) where
  won_le := h.won_le
  generation := by
    rintro u c ⟨⟩
    exact h.generation g true hg
  resumes u := by
    have hu := h.resumes u
    rw [hp] at hu
    by_cases he : u = g
    · subst he
      simp only [Function.update_self, hu, (h.generation u true hg).1, Phase.pending]
      simp
    · simp only [Function.update_of_ne he, hu, Phase.pending]
      simp [Ne.symm he]

theorem Inv.startReturns {g : ℕ} (h : Inv s ph) (hfree : s.free t = true)
    (hpc : s.pc t = .starting g true) : Inv (s.resumeFor t g) (.resumed t g) := by
  have hph := Phase.of_starting (h.agrees.control.of_active hpc rfl)
  subst hph
  refine h.moved hfree (by rw [hpc]; rfl) rfl h.agrees.bridge h.agrees.op rfl rfl
    (by rintro ⟨⟩) (by rintro ⟨⟩) (h.agrees.control.take (by rintro u q ⟨⟩; rfl)) (fun hf => ?_)
    id (by rintro ⟨⟩) (fun _ => id) (h.history.resumeFor rfl rfl)
  rcases h.agrees.finalized hf with he | he <;> cases he

theorem Inv.awaitResume {g : ℕ} (h : Inv s ph) (hfree : s.free t = true)
    (hpc : s.pc t = .resumed g) :
    Inv { s.setPc t .body with activeBridge := clearBridge s.activeBridge g, op := none }
      (.running t false) := by
  have hph := Phase.of_resumed (h.agrees.control.of_active hpc rfl)
  subst hph
  refine h.moved hfree (by rw [hpc]; rfl) rfl ?_ rfl rfl rfl
    (by rintro ⟨⟩) (by rintro ⟨⟩) (h.agrees.control.take (by rintro u q ⟨⟩; rfl)) (fun hf => ?_)
    id (by rintro ⟨⟩) (fun _ _ => rfl) (h.history.keep rfl rfl rfl (by rintro g ⟨⟩) rfl)
  · rw [h.agrees.bridge]
    simp [Phase.bridge, clearBridge]
  · rcases h.agrees.finalized hf with he | he <;> cases he

theorem Inv.pass (h : Inv s ph) (hfree : s.free t = true) (hpc : s.pc t = .body) :
    Inv (s.setPc t .passing) (.running t true) := by
  have hph := Phase.of_body (h.agrees.control.of_active hpc rfl)
  subst hph
  refine h.moved hfree (by rw [hpc]; rfl) rfl h.agrees.bridge h.agrees.op rfl rfl
    (by rintro ⟨⟩) (by rintro ⟨⟩) (h.agrees.control.take (by rintro u q ⟨⟩; rfl)) (fun hf => ?_)
    id (by rintro ⟨⟩) (fun _ => id) (h.history.keep rfl rfl rfl (fun g hg => hg) rfl)
  rcases h.agrees.finalized hf with he | he <;> cases he

theorem Inv.takePending (h : Inv s ph) (hfree : s.free t = true) (hpc : s.pc t = .passing) :
    Inv (s.setPc t .body) (.running t false) := by
  have hph := Phase.of_passing (h.agrees.control.of_active hpc rfl)
  subst hph
  refine h.moved hfree (by rw [hpc]; rfl) rfl h.agrees.bridge h.agrees.op rfl rfl
    (by rintro ⟨⟩) (by rintro ⟨⟩) (h.agrees.control.take (by rintro u q ⟨⟩; rfl)) (fun hf => ?_)
    id (by rintro ⟨⟩) (fun _ => id) (h.history.keep rfl rfl rfl (fun g hg => hg) rfl)
  rcases h.agrees.finalized hf with he | he <;> cases he

theorem Inv.finish (h : Inv s ph) (hfree : s.free t = true) (hpc : s.pc t = .body) :
    Inv { s.setPc t .callback with finalized := true } .finalized := by
  have hph := Phase.of_body (h.agrees.control.of_active hpc rfl)
  subst hph
  exact h.moved hfree (by rw [hpc]; rfl) rfl h.agrees.bridge h.agrees.op rfl rfl
    (by rintro ⟨⟩) (by rintro ⟨⟩) (h.agrees.control.release (by rintro u q ⟨⟩; rfl) rfl)
    (fun _ => rfl) (fun _ => rfl) (fun _ => rfl) (fun _ => id)
    (h.history.keep rfl rfl rfl (fun g hg => hg) rfl)

theorem Inv.startNotResumed {g : ℕ} (h : Inv s ph) (hfree : s.free t = true)
    (hpc : s.pc t = .starting g false) : Inv (s.setPc t .unwinding) ph :=
  h.stays hfree (by rw [hpc]; rfl) rfl rfl (h.agrees.not_driver (by rw [hpc]; rfl)) (by rintro ⟨⟩)

theorem Inv.callbackReturns (h : Inv s ph) (hfree : s.free t = true) (hpc : s.pc t = .callback) :
    Inv (s.setPc t .unwinding) ph :=
  h.stays hfree (by rw [hpc]; rfl) rfl rfl (h.agrees.not_driver (by rw [hpc]; rfl)) (by rintro ⟨⟩)

/-! ## The end of a resume -/

/-- A sealed chain that no thread is in is at rest. -/
theorem Agrees.atRest (h : Agrees s ph) (hs : ph.sealed = true) (hl : s.launcher = none)
    (hout : ∀ t, (s.pc t).scoped = false) : ph.atRest = true := by
  have hscoped : ∀ u q, ph.driver = some (u, q) → q.scoped = false := by
    intro u q hd
    have hc := h.control
    rw [hd] at hc
    rw [← hc.1]
    exact hout u
  cases ph with
  | launching u =>
    rw [h.launcher] at hl
    cases hl
  | running u passing =>
    have := hscoped _ _ rfl
    cases passing <;> cases this
  | published u g c | connecting u g c | connected u g c =>
    have := hscoped _ _ rfl
    cases this
  | parked g call | granted g u | completedInline u g | resumed u g => cases hs
  | unstarted | claimed g b call | finalized | gone => rfl

/-- The last resume leaves while the destruction is deferred to it. -/
theorem Inv.unwindLast (h : Inv s ph) (hfree : s.free t = true) (hpc : s.pc t = .unwinding)
    (hone : s.resumeCount = 1) (hde : s.deferredDestroy = true) :
    Inv ({ s.setPc t .outside with resumeCount := s.resumeCount - 1 }.teardown t) ph := by
  have hsc : (s.pc t).scoped = true := by rw [hpc]; rfl
  obtain ⟨hstarted, halive, hlauncher⟩ := h.awake hsc
  obtain ⟨_, hdel, habn, _⟩ := free_spec hfree
  have hcount := h.scopes.leave (x := .outside) hsc rfl
  have hzero : s.resumeCount - 1 = 0 := by omega
  have hagrees :
      Agrees ({ s.setPc t .outside with resumeCount := s.resumeCount - 1 }.teardown t) ph :=
    ⟨h.agrees.bridge, h.agrees.op, h.agrees.delivery, h.agrees.launcher,
      h.agrees.control.keep (h.agrees.not_driver (by rw [hpc]; rfl)) rfl, h.agrees.started,
      h.agrees.finalized, callback_update h.agrees.callback (by rintro ⟨⟩)⟩
  have hmoved : Engaged (s.setPc t .outside) := h.engaged.move hdel rfl rfl rfl rfl
  refine ⟨hagrees, hcount, fun _ => hzero, fun _ => by rintro ⟨⟩, ?_,
    h.history.keep rfl rfl rfl (fun g hg => hg) rfl, ⟨hmoved.abandoner, ?_, hmoved.place⟩, ?_⟩
  · rcases h.arbitrated.cases with ha | ⟨_, ha⟩ | ⟨hab, h₁, h₂, h₃, h₄, -, -⟩ | ha
    · rw [ha.2.2.1] at hde
      cases hde
    · rw [ha.deferredDestroy] at hde
      cases hde
    · refine (arbitrated_deferred (by exact hab)).mpr
        ⟨h₁, h₂, h₃, h₄, by rintro ⟨⟩, fun _ => ⟨?_, hzero⟩⟩
      rw [hzero] at hcount
      exact hagrees.atRest h₄ hlauncher hcount.of_zero
    · exact absurd halive ha.2.1
  · rintro d c hd ⟨⟩
    exact hdel d hd rfl
  · show s.teardowns + 1 = 1
    rw [h.teardowns, if_pos halive]

theorem Inv.unwind (h : Inv s ph) (hfree : s.free t = true) (hpc : s.pc t = .unwinding)
    (hnot : ¬ (s.resumeCount = 1 ∧ s.deferredDestroy = true)) :
    Inv { s.setPc t .outside with resumeCount := s.resumeCount - 1 } ph := by
  have hsc : (s.pc t).scoped = true := by rw [hpc]; rfl
  obtain ⟨hstarted, halive, hlauncher⟩ := h.awake hsc
  obtain ⟨_, hdel, habn, _⟩ := free_spec hfree
  refine ⟨⟨h.agrees.bridge, h.agrees.op, h.agrees.delivery, h.agrees.launcher,
    h.agrees.control.keep (h.agrees.not_driver (by rw [hpc]; rfl)) rfl, h.agrees.started,
    h.agrees.finalized, callback_update h.agrees.callback (by rintro ⟨⟩)⟩,
    h.scopes.leave hsc rfl, fun ha => ?_, h.gone, ?_,
    h.history.keep rfl rfl rfl (fun g hg => hg) rfl, h.engaged.move hdel rfl rfl rfl rfl,
    h.teardowns⟩
  · show s.resumeCount - 1 = 0
    rw [h.asleep ha]
  · refine h.arbitrated.frame rfl rfl rfl rfl id (fun _ => id) (fun u hu => ?_) (fun _ => id)
      (fun hde hpos => ?_) fun hf => absurd halive hf
    · refine Function.update_of_ne ?_ _ _
      rintro rfl
      exact habn hu
    · show 0 < s.resumeCount - 1
      have : s.resumeCount ≠ 1 := fun hone => hnot ⟨hone, hde⟩
      omega

theorem Inv.advance {l : Label} {s' : State} (h : Inv s ph) (hfree : s.free t = true)
    (hs : s.advance l t = some s') : ∃ ph', Inv s' ph' := by
  unfold State.advance at hs
  split at hs
  · rename_i hpc
    split at hs
    · cases hs
    · cases hs
      exact ⟨_, h.publish hfree hpc rfl⟩
  · rename_i g hpc
    cases hs
    obtain ⟨c, hc⟩ := h.checkAbandoning hfree hpc
    exact ⟨_, hc⟩
  · rename_i g hpc
    cases hs
    exact h.connect hfree hpc
  · rename_i g hpc
    cases hs
    exact ⟨_, h.connectThrows hfree hpc⟩
  · rename_i g hpc
    cases hs
    exact h.suspend hfree hpc
  · rename_i g completedInline hpc
    cases hs
    cases completedInline with
    | true => exact ⟨_, h.startReturns hfree hpc⟩
    | false => exact ⟨_, h.startNotResumed hfree hpc⟩
  · rename_i g hpc
    cases hs
    exact ⟨_, h.awaitResume hfree hpc⟩
  · rename_i hpc
    cases hs
    exact ⟨_, h.pass hfree hpc⟩
  · rename_i hpc
    cases hs
    exact ⟨_, h.takePending hfree hpc⟩
  · rename_i hpc
    cases hs
    exact ⟨_, h.finish hfree hpc⟩
  · rename_i hpc
    cases hs
    exact ⟨_, h.callbackReturns hfree hpc⟩
  · rename_i hpc
    cases hs
    by_cases hlast : s.resumeCount = 1 ∧ s.deferredDestroy = true
    · rw [if_pos hlast]
      exact ⟨_, h.unwindLast hfree hpc hlast.1 hlast.2⟩
    · rw [if_neg hlast]
      exact ⟨_, h.unwind hfree hpc hlast⟩
  · cases hs

end CCForge.FrameChain.Arbitration
