import CCForge.StopSource.Model

/-!
# The life of one callback

Everything that happens to one callback, seen on its own: its record, where the
source's list or the stop request under way has it, and the frame in which its
constructor or its destructor stands. `Sound` says which combinations occur, and
there is one lemma for each step that touches the callback.
-/

namespace CCForge.StopSource

/-- Where the list and the request under way have a callback. -/
inductive Place where
  | outside
  | listed
  | raw
  | queued
  | chosen
  | running
  | finishing
  deriving DecidableEq, Repr

structure View where
  cb : Callback
  place : Place
  build : Option (ThreadId × Frame)
  dtor : Option (ThreadId × Frame)

/-- The frame in which the constructor stands. -/
def View.stage (v : View) : Option Frame := v.build.map Prod.snd

/-- What is true of callback `c` when `q` is the thread that requested the stop. -/
structure Sound (q : Option ThreadId) (c : CallbackId) (v : View) : Prop where
  prev : v.cb.prev = true ↔ v.place = .listed ∨ v.place = .raw
  untouched : v.cb.prev = true ∨ v.stage = some (.constructing c) →
    v.cb.control = { object := true }
  placed : v.place ≠ .outside → v.cb.built = .registered
  unborn : v.cb.built = .unborn → v.cb = {}
  building : v.cb.built = .constructing ↔ v.build ≠ none
  source : v.cb.built = .registered ∨ v.stage = some (.constructing c) →
    v.cb.source = true
  detached : v.cb.control.detached = true →
    v.cb.control.requestThread = q ∧ q ≠ none ∧ v.cb.built = .registered
  taken : v.place = .queued ∨ v.place = .chosen ∨ v.place = .running ∨ v.place = .finishing →
    v.cb.control.detached = true
  runs : v.place = .chosen ∨ v.place = .running → v.cb.control.running = true
  running : v.cb.control.running = true → v.cb.control.detached = true ∧
    (v.place = .chosen ∨ v.place = .running ∨ v.place = .finishing)
  fresh : v.place = .listed ∨ v.place = .raw ∨ v.place = .queued ∨ v.place = .chosen ∨
    v.stage = some (.constructing c) ∨ v.stage = some (.inline c) →
    v.cb.started = []
  once : v.cb.started.length ≤ 1
  /-- A registered callback whose destructor has not been called awaits the request, or
  the request has invoked it. -/
  awaits : v.cb.built = .registered → v.cb.doomed = false →
    v.place = .listed ∨ v.place = .raw ∨
    (v.place = .queued ∧ v.cb.control.object = true ∧ v.cb.control.cancelled = false) ∨
    v.place = .chosen ∨ v.place = .running ∨ ∃ t ∈ v.cb.ended, q = some t
  invoked : v.cb.built = .invoked → v.cb.ended ≠ []
  dtor : v.dtor ≠ none → v.cb.doomed = true ∧ v.cb.destroyed = none
  dtorBuild : ∀ t f, v.dtor = some (t, f) → v.build = none ∨ v.build = some (t, .runningInline c)
  doomed : v.cb.doomed = true → v.cb.built = .constructing →
    v.stage = some (.runningInline c)
  cancelling : ∀ t, v.dtor = some (t, .cancelling c) → v.cb.prev = false
  waiting : ∀ t, v.dtor = some (t, .waiting c) → v.cb.prev = false ∧
    v.cb.control.object = false ∧ v.cb.control.detached = true ∧ v.cb.control.requestThread ≠ some t
  destroyed : ∀ t inside, v.cb.destroyed = some (t, inside) → v.cb.prev = false ∧
    v.cb.control.object = false ∧ v.cb.doomed = true ∧ v.dtor = none ∧
    (v.cb.control.running = true → v.cb.control.requestThread = some t) ∧
    (v.build ≠ none → inside = true)

namespace Sound

variable {q : Option ThreadId} {c : CallbackId} {v : View} {t : ThreadId}

theorem initial : Sound none c ⟨{}, .outside, none, none⟩ := by
  constructor <;> simp [View.stage]

theorem construct (h : Sound q c v) (hu : v.cb.built = .unborn) :
    Sound q c { v with
      cb := { v.cb with source := true, built := .constructing
                        control := { v.cb.control with object := true } }
      build := some (t, .constructing c) } := by
  have hcb := h.unborn hu
  obtain ⟨cb, place, build, dtor⟩ := v
  dsimp only at hcb hu
  subst hcb
  have hp : place = .outside := by
    by_contra hne
    simpa using h.placed hne
  have hd : dtor = none := by
    by_contra hne
    simpa using (h.dtor hne).1
  subst hp hd
  constructor <;> simp [View.stage]

/-! The constructor. -/

theorem register (h : Sound none c v) (hb : v.build = some (t, .constructing c)) :
    Sound none c { v with
      cb := { v.cb with prev := true, built := .registered }, place := .listed, build := none } :=
  { h with
    prev := by simp
    untouched := by grind [View.stage, h.untouched]
    placed := by simp
    unborn := by simp
    building := by simp
    source := by grind [View.stage, h.source]
    detached := by grind [View.stage, h.untouched]
    taken := by simp
    runs := by simp
    running := by grind [View.stage, h.untouched]
    fresh := by grind [View.stage, h.fresh]
    awaits := by simp
    invoked := by simp
    dtorBuild := by simp
    doomed := by simp
    cancelling := by
      have hdtorBuild := h.dtorBuild
      grind
    waiting := by
      have hdtorBuild := h.dtorBuild
      grind
    destroyed := by
      have huntouched := h.untouched
      have hdestroyed := h.destroyed
      grind [View.stage] }

theorem tooLate (h : Sound q c v) (hb : v.build = some (t, .constructing c)) :
    Sound q c { v with cb := { v.cb with source := false }, build := some (t, .inline c) } :=
  { h with
    untouched := by grind [View.stage, h.untouched]
    unborn := by grind [h.unborn]
    building := by grind [h.building]
    source := by grind [View.stage, h.building]
    fresh := by grind [View.stage, h.fresh]
    dtorBuild := by grind [h.dtorBuild]
    doomed := by
      have hdoomed := h.doomed
      grind [View.stage]
    destroyed := by grind [h.destroyed] }

theorem startInline (h : Sound q c v) (hb : v.build = some (t, .inline c)) :
    Sound q c { v with
      cb := { v.cb with started := v.cb.started ++ [t] }, build := some (t, .runningInline c) } :=
  { h with
    untouched := by grind [View.stage, h.untouched]
    unborn := by grind [h.building]
    building := by grind [h.building]
    source := by grind [View.stage, h.building]
    fresh := by grind [View.stage, h.placed, h.building]
    once := by grind [View.stage, h.fresh]
    dtorBuild := by grind [h.dtorBuild]
    doomed := by grind [View.stage]
    destroyed := by grind [h.destroyed] }

theorem endInline (h : Sound q c v) (hb : v.build = some (t, .runningInline c)) :
    Sound q c { v with
      cb := { v.cb with ended := v.cb.ended ++ [t], built := .invoked }, build := none } :=
  { h with
    untouched := by grind [View.stage, List.append_eq_nil_iff, h.untouched]
    placed := by grind [h.placed, h.building]
    unborn := by simp
    building := by simp
    source := by grind [View.stage, List.append_eq_nil_iff]
    detached := by
      have hbuilding := h.building
      have hdetached := h.detached
      grind
    fresh := by grind [View.stage, List.append_eq_nil_iff, h.placed, h.building]
    awaits := by simp
    invoked := by simp
    dtorBuild := by simp
    doomed := by simp
    destroyed := by grind [h.destroyed] }

/-! The stop request. -/

theorem request (h : Sound none c v) (hp : v.place = .listed ∨ v.place = .outside) :
    Sound (some t) c { v with place := if v.place = .listed then .raw else .outside } :=
  { h with
    prev := by grind [h.prev]
    placed := by grind [h.placed]
    detached := by grind [h.detached]
    taken := by grind
    runs := by grind
    running := by grind [h.running]
    fresh := by grind [View.stage, h.fresh]
    awaits := by grind [h.awaits] }

theorem detach (h : Sound (some t) c v) (hp : v.place = .raw) :
    Sound (some t) c { v with cb := State.detach t v.cb, place := .queued } where
  prev := by grind [State.detach]
  untouched := by grind [View.stage, State.detach, h.placed, h.building]
  placed := by grind [State.detach, h.placed]
  unborn := by grind [State.detach, h.placed]
  building := h.building
  source := h.source
  detached := by grind [State.detach, h.placed]
  taken := by grind [State.detach]
  runs := by simp
  running := by grind [View.stage, State.detach, h.prev, h.untouched]
  fresh := by grind [View.stage, State.detach, h.fresh]
  once := by grind [View.stage, State.detach, h.fresh]
  awaits := by grind [State.detach]
  invoked := by grind [State.detach, h.placed]
  dtor := h.dtor
  dtorBuild := by grind [h.placed, h.building]
  doomed := by grind [View.stage, State.detach, h.placed]
  cancelling := by grind [State.detach]
  waiting := by grind [h.prev, h.waiting]
  destroyed := by grind [State.detach, h.prev, h.destroyed]

theorem choose (h : Sound q c v) (hp : v.place = .queued) (ho : v.cb.control.object = true) :
    Sound q c { v with
      cb := { v.cb with control := { v.cb.control with running := true } }, place := .chosen } :=
  { h with
    prev := by grind [h.prev]
    untouched := by grind [View.stage, h.prev, h.placed, h.building]
    placed := by grind [h.placed]
    unborn := by grind [h.placed]
    taken := by grind [h.taken]
    runs := by simp
    running := by grind [h.taken]
    fresh := by grind [h.fresh]
    awaits := by simp
    destroyed := by grind [h.destroyed] }

theorem skip (h : Sound q c v) (hp : v.place = .queued)
    (hc : ¬(v.cb.control.cancelled = false ∧ v.cb.control.object = true)) :
    Sound q c { v with place := .finishing } :=
  { h with
    prev := by grind [h.prev]
    placed := by grind [h.placed]
    taken := by grind [h.taken]
    runs := by simp
    running := by grind [h.taken]
    fresh := by grind [View.stage, h.placed, h.building]
    awaits := by grind [h.awaits] }

theorem start (h : Sound q c v) (hp : v.place = .chosen) :
    Sound q c { v with cb := { v.cb with started := v.cb.started ++ [t] }, place := .running } :=
  { h with
    prev := by grind [h.prev]
    placed := by grind [h.placed]
    unborn := by grind [h.placed]
    taken := by grind [h.taken]
    runs := by grind [h.runs]
    running := by grind [h.taken]
    fresh := by grind [View.stage, h.placed, h.building]
    once := by grind [h.fresh]
    awaits := by simp }

theorem «end» (h : Sound (some t) c v) (hp : v.place = .running) :
    Sound (some t) c { v with
      cb := { v.cb with ended := v.cb.ended ++ [t] }, place := .finishing } :=
  { h with
    prev := by grind [h.prev]
    placed := by grind [h.placed]
    unborn := by grind [h.placed]
    taken := by grind [h.taken]
    runs := by simp
    running := by grind [h.taken]
    fresh := by grind [View.stage, h.placed, h.building]
    awaits := by simp
    invoked := by simp }

theorem finish (h : Sound q c v) (hp : v.place = .finishing) :
    Sound q c { v with cb := State.finish v.cb, place := .outside } where
  prev := by grind [State.finish, h.prev]
  untouched := by grind [View.stage, State.finish, h.prev, h.placed, h.building]
  placed := by simp
  unborn := by grind [State.finish, h.placed]
  building := h.building
  source := h.source
  detached := h.detached
  taken := by simp
  runs := by simp
  running := by grind [State.finish]
  fresh := by grind [View.stage, State.finish, h.placed, h.building]
  once := h.once
  awaits := by grind [State.finish, h.awaits]
  invoked := by grind [State.finish, h.placed]
  dtor := h.dtor
  dtorBuild := by grind [h.placed, h.building]
  doomed := by grind [View.stage, State.finish, h.placed]
  cancelling := by grind [State.finish, h.prev]
  waiting := by grind [State.finish, h.waiting]
  destroyed := by grind [State.finish, h.destroyed]

/-! The destructor. -/

theorem destroy (h : Sound q c v) (hd : v.cb.doomed = false)
    (hb : v.cb.built = .registered ∨ v.cb.built = .invoked ∨
      v.build = some (t, .runningInline c)) {f : Frame}
    (hf : f = if v.cb.source = true ∧ v.cb.control.detached = false then .removing c
      else .cancelling c) :
    Sound q c { v with cb := { v.cb with doomed := true }, dtor := some (t, f) } := by
  have hprev : v.cb.prev = true → f = .removing c := by
    intro hp
    have hs := h.source (.inl (h.placed (by rcases h.prev.mp hp with hv | hv <;> simp [hv])))
    have hc := h.untouched (.inl hp)
    simp [hf, hs, hc]
  have hreturned : v.cb.destroyed = none := by
    cases hx : v.cb.destroyed with
    | none => rfl
    | some x => simpa [hd] using (h.destroyed x.1 x.2 hx).2.2.1
  exact { h with
    unborn := by grind [h.building]
    awaits := by simp
    dtor := by grind
    dtorBuild := by grind [h.building]
    doomed := by grind [View.stage]
    cancelling := by grind
    waiting := by grind
    destroyed := by grind }

theorem remove (h : Sound q c v) (hd : v.dtor = some (t, .removing c)) (hp : v.place = .listed) :
    Sound q c { v with
      cb := { v.cb with prev := false }, place := .outside, dtor := some (t, .cancelling c) } :=
  { h with
    prev := by simp
    untouched := by grind [View.stage, h.untouched]
    placed := by simp
    unborn := by grind [h.placed]
    taken := by simp
    runs := by simp
    running := by grind [h.prev, h.untouched]
    fresh := by grind [View.stage, h.placed, h.building]
    awaits := by grind [h.dtor]
    dtor := by grind [h.dtor]
    dtorBuild := by grind [h.placed, h.building]
    cancelling := by simp
    waiting := by simp
    destroyed := by
      have hdtor := h.dtor
      grind }

theorem removed (h : Sound q c v) (hd : v.dtor = some (t, .removing c)) (hp : v.cb.prev = false) :
    Sound q c { v with dtor := some (t, .cancelling c) } :=
  { h with
    dtor := by grind [h.dtor]
    dtorBuild := by grind [h.dtorBuild]
    cancelling := by grind
    waiting := by simp
    destroyed := by
      have hdtor := h.dtor
      grind }

theorem wait (h : Sound q c v) (hd : v.dtor = some (t, .cancelling c))
    (hr : v.cb.control.running = true) (ht : v.cb.control.requestThread ≠ some t) :
    Sound q c { v with cb := State.cancel v.cb, dtor := some (t, .waiting c) } where
  prev := h.prev
  untouched := by grind [View.stage, State.cancel, h.untouched]
  placed := h.placed
  unborn := by grind [State.cancel, h.unborn]
  building := h.building
  source := h.source
  detached := h.detached
  taken := h.taken
  runs := by grind [State.cancel]
  running := h.running
  fresh := h.fresh
  once := h.once
  awaits := by grind [State.cancel, h.running, h.awaits]
  invoked := by grind [State.cancel, h.placed, h.running]
  dtor := by grind [State.cancel, h.dtor]
  dtorBuild := by
    have hplaced := h.placed
    have hbuilding := h.building
    have hrunning := h.running
    grind
  doomed := by grind [View.stage, State.cancel, h.placed, h.running]
  cancelling := by simp
  waiting := by grind [State.cancel, h.prev, h.running]
  destroyed := by grind [State.cancel, h.dtor]

theorem cancelReturn (h : Sound q c v) (hd : v.dtor = some (t, .cancelling c))
    (hr : ¬(v.cb.control.running = true ∧ v.cb.control.requestThread ≠ some t)) (inside : Bool)
    (hi : v.build ≠ none → inside = true) :
    Sound q c { v with
      cb := { State.cancel v.cb with destroyed := some (t, inside) }, dtor := none } where
  prev := h.prev
  untouched := by
    have hdtorBuild := h.dtorBuild
    have hcancelling := h.cancelling
    grind [View.stage, State.cancel]
  placed := h.placed
  unborn := by grind [State.cancel, h.unborn, h.dtor]
  building := h.building
  source := h.source
  detached := h.detached
  taken := h.taken
  runs := h.runs
  running := h.running
  fresh := h.fresh
  once := h.once
  awaits := by grind [State.cancel, h.dtor]
  invoked := h.invoked
  dtor := by simp
  dtorBuild := by simp
  doomed := by
    have hbuilding := h.building
    have hdtorBuild := h.dtorBuild
    grind [View.stage, State.cancel]
  cancelling := by simp
  waiting := by simp
  destroyed := by grind [State.cancel, h.dtor, h.cancelling]

theorem waitReturn (h : Sound q c v) (hd : v.dtor = some (t, .waiting c))
    (hr : v.cb.control.running = false) (inside : Bool) (hi : v.build ≠ none → inside = true) :
    Sound q c { v with cb := { v.cb with destroyed := some (t, inside) }, dtor := none } :=
  { h with
    unborn := by grind [h.unborn, h.dtor]
    dtor := by simp
    dtorBuild := by simp
    cancelling := by simp
    waiting := by simp
    destroyed := by grind [h.dtor, h.waiting] }

end Sound

end CCForge.StopSource
