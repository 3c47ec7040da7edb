import CCForge.Lib.Run
import CCForge.Lib.Threads

/-!
# Coroutines that await senders

A coroutine that awaits a sender is suspended until the sender completes. A completion inside of
the call of `start` must not resume the coroutine on top of that call. `__complete` looks for the
call in the chain of the `__start_scope`s of its thread, by the address of the awaitable, and
leaves the coroutine to it. On a thread without such a scope it resumes the coroutine itself.

An address is used again once its awaitable is gone, also while an older scope with the same
address is on a stack. The operation of an awaitable completes at most once, at any time after
`start` is called and on any thread. Awaits have names that are not used again.
-/

namespace CCForge.Senders.Awaitables

open Function (update)

abbrev ThreadId := ℕ
/-- The address of an `__awaitable`. -/
abbrev Key := ℕ
abbrev AwaitId := ℕ
abbrev Coroutine := ℕ

/-- The coroutine handle that goes to `__complete`, with the await that is over. -/
structure Handle where
  coroutine : Coroutine
  await : AwaitId
  deriving DecidableEq, Repr

/-- What is on the stack of a thread. -/
inductive Frame where
  | body (coroutine : Coroutine)
  /-- The call of `start` in `await_suspend`, with its `__start_scope`. -/
  | scope (key : Key) (await : AwaitId) (resume : Option Handle)
  deriving DecidableEq, Repr

def Frame.scope? : Frame → Option (Key × AwaitId)
  | body _ => none
  | scope k a _ => some (k, a)

/-- The scopes from `__current` on, by `__previous`. -/
def chain (stack : List Frame) : List (Key × AwaitId) := stack.filterMap Frame.scope?

/-- `__defer`: the innermost scope with the key takes the handle. -/
def defer (key : Key) (next : Handle) : List Frame → Option (List Frame)
  | [] => none
  | .body c :: rest => (defer key next rest).map (.body c :: ·)
  | .scope k a r :: rest =>
    if k = key then some (.scope k a (some next) :: rest)
    else (defer key next rest).map (.scope k a r :: ·)

inductive CoroutineState where
  /-- Not started, or suspended for something that is not a sender, as a task that it awaits. -/
  | idle
  | running
  | awaiting (await : AwaitId)
  /-- `unhandled_stopped` was called for it. -/
  | stopped
  | finished
  deriving DecidableEq, Repr

inductive Phase where
  | started
  /-- The receiver was called. -/
  | completed
  | resumed
  deriving DecidableEq, Repr

/-- `__awaitable`. The coroutine is the one to resume. -/
structure Await where
  coroutine : Coroutine
  key : Key
  phase : Phase := .started
  deriving DecidableEq, Repr

structure State where
  frames : ThreadId → List Frame := fun _ => []
  coroutines : Coroutine → CoroutineState := fun _ => .idle
  awaits : List Await := []
  /-- How often a coroutine was resumed for the await. -/
  resumes : AwaitId → ℕ := fun _ => 0

inductive Label where
  /-- A coroutine is started, or resumed by something that is not a sender. -/
  | enter (thread : ThreadId) (coroutine : Coroutine)
  | leave (thread : ThreadId)
  | finish (thread : ThreadId)
  | await (thread : ThreadId) (key : Key)
  /-- The receiver is called: `set_stopped` with the coroutine that `unhandled_stopped` returns,
  or a completion that goes to the coroutine that awaits. -/
  | complete (thread : ThreadId) (await : AwaitId) (handler : Option Coroutine)
  | startReturns (thread : ThreadId)
  deriving DecidableEq, Repr

def Label.thread : Label → ThreadId
  | enter t _ | leave t | finish t | await t _ | complete t _ _ | startReturns t => t

namespace State

/-- `next.resume()`, with the frames of `stack` below. -/
def resume (s : State) (t : ThreadId) (next : Handle) (stack : List Frame) : State where
  frames := update s.frames t (.body next.coroutine :: stack)
  coroutines := update s.coroutines next.coroutine .running
  awaits := s.awaits.modify next.await fun w => { w with phase := .resumed }
  resumes := update s.resumes next.await (s.resumes next.await + 1)

/-- `unhandled_stopped` returns the coroutine `p`. -/
def unhandledStopped (s : State) (a : AwaitId) (w : Await) (p : Coroutine) : State :=
  { s with
    coroutines := update (update s.coroutines w.coroutine .stopped) p (.awaiting a)
    awaits := s.awaits.modify a fun w => { w with coroutine := p } }

/-- `__complete`. -/
def complete (s : State) (t : ThreadId) (key : Key) (next : Handle) : State :=
  match defer key next (s.frames t) with
  | some stack =>
    { s with
      frames := update s.frames t stack
      awaits := s.awaits.modify next.await fun w => { w with phase := .completed } }
  | none => s.resume t next (s.frames t)

/-- The coroutine that thread `t` runs stops to run. -/
def leave (s : State) (t : ThreadId) (after : CoroutineState) : Option State :=
  match s.frames t with
  | .body c :: rest =>
    some { s with
      frames := update s.frames t rest, coroutines := update s.coroutines c after }
  | _ => none

/-- No awaitable that is still there has the address. -/
def unused (s : State) (key : Key) : Bool :=
  s.awaits.all fun w => w.phase == .resumed || w.key != key

/-- `await_suspend` up to the call of `start`. -/
def await (s : State) (t : ThreadId) (key : Key) : Option State :=
  match s.frames t with
  | .body c :: rest =>
    if s.unused key then
      some { s with
        frames := update s.frames t (.scope key s.awaits.length none :: rest)
        coroutines := update s.coroutines c (.awaiting s.awaits.length)
        awaits := s.awaits ++ [{ coroutine := c, key := key }] }
    else none
  | _ => none

end State

def step (s : State) : Label → Option State
  | .enter t c =>
    if s.coroutines c = .idle then
      some { s with
        frames := update s.frames t (.body c :: s.frames t)
        coroutines := update s.coroutines c .running }
    else none
  | .leave t => s.leave t .idle
  | .finish t => s.leave t .finished
  | .await t key => s.await t key
  | .complete t a handler =>
    s.awaits[a]?.bind fun w =>
      if w.phase = .started then
        match handler with
        | none => some (s.complete t w.key ⟨w.coroutine, a⟩)
        | some p =>
          if s.coroutines p = .idle then
            some ((s.unhandledStopped a w p).complete t w.key ⟨p, a⟩)
          else none
      else none
  | .startReturns t =>
    match s.frames t with
    | .scope _ _ none :: rest => some { s with frames := update s.frames t rest }
    | .scope _ _ (some next) :: rest => some (s.resume t next rest)
    | _ => none

def Initial (s : State) : Prop := s = {}

/-! ## The chain of scopes -/

variable {k : Key} {a : AwaitId} {h : Handle} {stack new : List Frame}

@[simp] theorem chain_body (c : Coroutine) (rest : List Frame) :
    chain (.body c :: rest) = chain rest := rfl

@[simp] theorem chain_scope (k : Key) (a : AwaitId) (r : Option Handle) (rest : List Frame) :
    chain (.scope k a r :: rest) = (k, a) :: chain rest := rfl

theorem defer_some (hd : defer k h stack = some new) :
    ∃ upper a r lower, stack = upper ++ .scope k a r :: lower ∧
      new = upper ++ .scope k a (some h) :: lower := by
  induction stack generalizing new with
  | nil => cases hd
  | cons f rest ih =>
    cases f with
    | body c =>
      simp only [defer, Option.map_eq_some_iff] at hd
      obtain ⟨rest', hr, rfl⟩ := hd
      obtain ⟨upper, a, r, lower, rfl, rfl⟩ := ih hr
      exact ⟨.body c :: upper, a, r, lower, rfl, rfl⟩
    | scope k' a r =>
      simp only [defer] at hd
      split at hd
      · next hk =>
        subst hk
        cases hd
        exact ⟨[], a, r, rest, rfl, rfl⟩
      · simp only [Option.map_eq_some_iff] at hd
        obtain ⟨rest', hr, rfl⟩ := hd
        obtain ⟨upper, a', r', lower, rfl, rfl⟩ := ih hr
        exact ⟨.scope k' a r :: upper, a', r', lower, rfl, rfl⟩

theorem defer_none (hd : defer k h stack = none) : ∀ x ∈ chain stack, x.1 ≠ k := by
  induction stack with
  | nil => simp [chain]
  | cons f rest ih =>
    cases f with
    | body c =>
      simp only [defer, Option.map_eq_none_iff] at hd
      exact ih hd
    | scope k' a r =>
      simp only [defer] at hd
      split at hd
      · cases hd
      · next hk =>
        simp only [Option.map_eq_none_iff] at hd
        intro x hx
        rcases List.mem_cons.mp hx with rfl | hx
        · exact hk
        · exact ih hd x hx

theorem chain_defer (hd : defer k h stack = some new) : chain new = chain stack := by
  obtain ⟨upper, a, r, lower, rfl, rfl⟩ := defer_some hd
  simp [chain, Frame.scope?]

theorem mem_chain {r : Option Handle} (hf : Frame.scope k a r ∈ stack) : (k, a) ∈ chain stack :=
  List.mem_filterMap.mpr ⟨_, hf, rfl⟩

/-! ## Awaits that are not resumed yet -/

def Resumed (awaits : List Await) (a : AwaitId) : Prop :=
  ∃ w, awaits[a]? = some w ∧ w.phase = .resumed

section
variable {awaits : List Await} {f : Await → Await} {b : AwaitId} {v w : Await}

theorem modify_some (hw : awaits[b]? = some w) :
    (awaits.modify a f)[b]? = some (if a = b then f w else w) := by
  rw [List.getElem?_modify, hw]
  rfl

theorem of_modify (hw : (awaits.modify a f)[b]? = some w) :
    ∃ v, awaits[b]? = some v ∧ w = if a = b then f v else v := by
  rw [List.getElem?_modify] at hw
  cases hb : awaits[b]? with
  | none => simp [hb] at hw
  | some v =>
    rw [hb] at hw
    exact ⟨v, rfl, (Option.some.inj hw).symm⟩

theorem of_append (hw : (awaits ++ [v])[b]? = some w) :
    awaits[b]? = some w ∨ b = awaits.length ∧ w = v := by
  rcases Nat.lt_trichotomy b awaits.length with hb | rfl | hb
  · rw [List.getElem?_append_left hb] at hw
    exact .inl hw
  · simp at hw
    exact .inr ⟨rfl, hw.symm⟩
  · rw [List.getElem?_eq_none (by simp; omega)] at hw
    cases hw

theorem append_some (hw : awaits[b]? = some w) : (awaits ++ [v])[b]? = some w := by
  rw [List.getElem?_append_left (List.getElem?_eq_some_iff.mp hw).choose, hw]

end

/-- A scope below another one with the same address belongs to an await that is resumed, and
awaits that are not have different addresses. -/
structure Chained (awaits : List Await) (frames : ThreadId → List Frame) : Prop where
  scopes : ∀ t, ∀ x ∈ chain (frames t), ∃ w, awaits[x.2]? = some w ∧ w.key = x.1
  nested : ∀ t, (chain (frames t)).Pairwise fun u l => u.1 = l.1 → Resumed awaits l.2
  keys : ∀ (a b : AwaitId) (v w : Await), awaits[a]? = some v → awaits[b]? = some w →
    v.phase ≠ .resumed → w.phase ≠ .resumed → v.key = w.key → a = b

namespace Chained

variable {awaits : List Await} {frames : ThreadId → List Frame} {t : ThreadId} {f : Await → Await}

theorem modify (hi : Chained awaits frames)
    (hf : ∀ w, awaits[a]? = some w →
      (f w).key = w.key ∧ (w.phase = .resumed → (f w).phase = .resumed)) :
    Chained (awaits.modify a f) frames := by
  have hkept : ∀ b w, awaits[b]? = some w → (if a = b then f w else w).key = w.key ∧
      (w.phase = .resumed → (if a = b then f w else w).phase = .resumed) := by
    intro b w hw
    split
    · next hb =>
      subst hb
      exact hf w hw
    · exact ⟨rfl, id⟩
  constructor
  · intro t x hx
    obtain ⟨w, hw, hk⟩ := hi.scopes t x hx
    exact ⟨_, modify_some hw, (hkept _ w hw).1.trans hk⟩
  · intro t
    refine (hi.nested t).imp fun hr he => ?_
    obtain ⟨w, hw, hp⟩ := hr he
    exact ⟨_, modify_some hw, (hkept _ w hw).2 hp⟩
  · intro b c v w hv hw hpv hpw he
    obtain ⟨v', hv', rfl⟩ := of_modify hv
    obtain ⟨w', hw', rfl⟩ := of_modify hw
    refine hi.keys b c v' w' hv' hw' (fun hp => hpv ((hkept b v' hv').2 hp))
      (fun hp => hpw ((hkept c w' hw').2 hp)) ?_
    rw [← (hkept b v' hv').1, ← (hkept c w' hw').1, he]

theorem restack (hi : Chained awaits frames) (hn : (chain new).Sublist (chain (frames t))) :
    Chained awaits (update frames t new) where
  scopes u x hx := by
    by_cases hu : u = t
    · subst hu
      rw [Function.update_self] at hx
      exact hi.scopes u x (hn.subset hx)
    · rw [Function.update_of_ne hu] at hx
      exact hi.scopes u x hx
  nested u := by
    by_cases hu : u = t
    · subst hu
      rw [Function.update_self]
      exact (hi.nested u).sublist hn
    · rw [Function.update_of_ne hu]
      exact hi.nested u
  keys := hi.keys

/-- A new await is on top of the chain of its thread. -/
theorem push (hi : Chained awaits frames) {w : Await}
    (hk : ∀ v ∈ awaits, v.phase ≠ .resumed → v.key ≠ w.key)
    (hn : chain new = (w.key, awaits.length) :: chain (frames t)) :
    Chained (awaits ++ [w]) (update frames t new) where
  scopes u x hx := by
    have hold : ∀ u, ∀ x ∈ chain (frames u), ∃ v, (awaits ++ [w])[x.2]? = some v ∧ v.key = x.1 := by
      intro u x hx
      obtain ⟨v, hv, hkey⟩ := hi.scopes u x hx
      exact ⟨v, append_some hv, hkey⟩
    by_cases hu : u = t
    · subst hu
      rw [Function.update_self, hn] at hx
      rcases List.mem_cons.mp hx with rfl | hx
      · exact ⟨w, by simp, rfl⟩
      · exact hold u x hx
    · rw [Function.update_of_ne hu] at hx
      exact hold u x hx
  nested u := by
    have hold : ∀ u, (chain (frames u)).Pairwise
        fun x y => x.1 = y.1 → Resumed (awaits ++ [w]) y.2 := by
      intro u
      refine (hi.nested u).imp fun hr he => ?_
      obtain ⟨v, hv, hp⟩ := hr he
      exact ⟨v, append_some hv, hp⟩
    by_cases hu : u = t
    · subst hu
      rw [Function.update_self, hn]
      refine List.pairwise_cons.mpr ⟨fun x hx he => ?_, hold u⟩
      obtain ⟨v, hv, hkey⟩ := hi.scopes u x hx
      refine ⟨v, append_some hv, ?_⟩
      -- a scope with the new address whose await is not resumed would be in use
      by_contra hp
      exact hk v (List.mem_of_getElem? hv) hp (hkey.trans he.symm)
    · rw [Function.update_of_ne hu]
      exact hold u
  keys a b v v' hv hv' hp hp' he := by
    rcases of_append hv with ha | ⟨ha, hvw⟩ <;> rcases of_append hv' with hb | ⟨hb, hvw'⟩
    · exact hi.keys a b v v' ha hb hp hp' he
    · rw [hvw'] at he
      exact absurd he (hk v (List.mem_of_getElem? ha) hp)
    · rw [hvw] at he
      exact absurd he.symm (hk v' (List.mem_of_getElem? hb) hp')
    · rw [ha, hb]

end Chained

/-! ## Where a coroutine is -/

/-- The frame runs the coroutine or keeps a handle of it. -/
def Frame.holds (c : Coroutine) : Frame → Bool
  | body d => d == c
  | scope _ _ r => r.any fun h => h.coroutine == c

/-- The frame that holds the coroutine, by the state of the coroutine. -/
def State.Placed (s : State) (c : Coroutine) (o : Option (ThreadId × Frame)) : Prop :=
  match s.coroutines c with
  | .running => ∃ t, o = some (t, .body c)
  | .awaiting a => ∃ w, s.awaits[a]? = some w ∧ w.coroutine = c ∧
      (w.phase = .started ∧ o = none ∨
        w.phase = .completed ∧ ∃ t b, o = some (t, .scope w.key b (some ⟨c, a⟩)))
  | .idle | .stopped | .finished => o = none

def State.Held (s : State) (c : Coroutine) : Prop :=
  ∃ o, Sole (Frame.holds c) s.frames o ∧ s.Placed c o

def timesResumed : Option Await → ℕ
  | some w => if w.phase = .resumed then 1 else 0
  | none => 0

structure Inv (s : State) : Prop where
  held : ∀ c, s.Held c
  awaiting : ∀ (a : AwaitId) (w : Await), s.awaits[a]? = some w → w.phase ≠ .resumed →
    s.coroutines w.coroutine = .awaiting a
  chained : Chained s.awaits s.frames
  counted : ∀ a : AwaitId, s.resumes a = timesResumed s.awaits[a]?

section
variable {s s' : State} {t : ThreadId} {c d : Coroutine} {b : AwaitId} {w : Await}

@[simp] theorem holds_body : (Frame.body d).holds c = true ↔ d = c := by
  simp [Frame.holds]

@[simp] theorem holds_scope_none : (Frame.scope k a none).holds c = false := rfl

@[simp] theorem holds_scope_some : (Frame.scope k a (some h)).holds c = true ↔ h.coroutine = c := by
  simp [Frame.holds]

/-- A coroutine that a step of thread `t` leaves alone. -/
theorem State.Held.keep (hd : s.Held d) (hs : s'.frames = update s.frames t new)
    (hn : new.filter (Frame.holds d) = (s.frames t).filter (Frame.holds d))
    (hc : s'.coroutines d = s.coroutines d)
    (hw : ∀ (a : AwaitId) (w : Await), s.awaits[a]? = some w → w.coroutine = d →
      s'.awaits[a]? = some w) : s'.Held d := by
  obtain ⟨o, ho, hp⟩ := hd
  refine ⟨o, ?_, ?_⟩
  · rw [hs]
    exact ho.keep hn
  · unfold State.Placed at hp ⊢
    rw [hc]
    cases hx : s.coroutines d with
    | awaiting a =>
      rw [hx] at hp
      obtain ⟨w, ha, hwd, hp⟩ := hp
      exact ⟨w, hw a w ha hwd, hwd, hp⟩
    | idle | running | stopped | finished => simpa only [hx] using hp

theorem Inv.of_body (hi : Inv s) (hm : .body c ∈ s.frames t) :
    s.coroutines c = .running ∧ Sole (Frame.holds c) s.frames (some (t, .body c)) := by
  obtain ⟨o, ho, hp⟩ := hi.held c
  obtain rfl := ho.of_mem hm (by simp)
  refine ⟨?_, ho⟩
  unfold State.Placed at hp
  cases hx : s.coroutines c with
  | running => rfl
  | awaiting a =>
    rw [hx] at hp
    obtain ⟨w, -, -, ⟨-, he⟩ | ⟨-, u, b, he⟩⟩ := hp <;> cases he
  | idle | stopped | finished =>
    rw [hx] at hp
    cases hp

theorem Inv.of_scope (hi : Inv s) (hm : .scope k b (some h) ∈ s.frames t) :
    s.coroutines h.coroutine = .awaiting h.await ∧
      (∃ w, s.awaits[h.await]? = some w ∧ w.coroutine = h.coroutine ∧ w.phase = .completed ∧
        w.key = k) ∧
      Sole (Frame.holds h.coroutine) s.frames (some (t, .scope k b (some h))) := by
  obtain ⟨o, ho, hp⟩ := hi.held h.coroutine
  obtain rfl := ho.of_mem hm (by simp)
  unfold State.Placed at hp
  cases hx : s.coroutines h.coroutine with
  | awaiting a =>
    rw [hx] at hp
    obtain ⟨w, hw, hwc, ⟨-, he⟩ | ⟨hph, u, b', he⟩⟩ := hp
    · cases he
    · simp only [Option.some.injEq, Prod.mk.injEq, Frame.scope.injEq] at he
      obtain ⟨-, rfl, -, hh⟩ := he
      obtain rfl : h.await = a := congrArg Handle.await hh
      exact ⟨rfl, ⟨w, hw, hwc, hph, rfl⟩, ho⟩
  | running =>
    rw [hx] at hp
    obtain ⟨u, he⟩ := hp
    cases he
  | idle | stopped | finished =>
    rw [hx] at hp
    cases hp

theorem Inv.of_started (hi : Inv s) (hw : s.awaits[a]? = some w) (hp : w.phase = .started) :
    s.coroutines w.coroutine = .awaiting a ∧ Sole (Frame.holds w.coroutine) s.frames none := by
  have hc := hi.awaiting a w hw (by simp [hp])
  refine ⟨hc, ?_⟩
  obtain ⟨o, ho, hpl⟩ := hi.held w.coroutine
  unfold State.Placed at hpl
  rw [hc] at hpl
  obtain ⟨v, hv, -, ⟨-, rfl⟩ | ⟨hph, -⟩⟩ := hpl
  · exact ho
  · rw [hw] at hv
    cases hv
    rw [hp] at hph
    cases hph

theorem Inv.of_idle (hi : Inv s) (hc : s.coroutines c = .idle) :
    Sole (Frame.holds c) s.frames none := by
  obtain ⟨o, ho, hp⟩ := hi.held c
  unfold State.Placed at hp
  rw [hc] at hp
  rwa [hp] at ho

theorem Inv.other (hi : Inv s) (hw : s.awaits[a]? = some w) (hp : w.phase ≠ .resumed)
    (hc : s.coroutines c ≠ .awaiting a) : w.coroutine ≠ c := by
  rintro rfl
  exact hc (hi.awaiting a w hw hp)

/-! ## Steps -/

theorem Inv.initial : Inv {} where
  held _ := ⟨none, fun _ => rfl, rfl⟩
  awaiting _ _ hw := by simp at hw
  chained := ⟨by simp [chain], by simp [chain], by simp⟩
  counted _ := rfl

theorem Inv.enter (hi : Inv s) (hc : s.coroutines c = .idle) :
    Inv { s with
      frames := update s.frames t (.body c :: s.frames t)
      coroutines := update s.coroutines c .running } where
  held d := by
    by_cases hd : d = c
    · subst hd
      refine ⟨some (t, .body d), (hi.of_idle hc).own (fun _ _ => rfl) ?_, ?_⟩
      · rw [List.filter_cons_of_pos (by simp), hi.of_idle hc t, ownedBy_none]
      · simp [State.Placed]
    · exact (hi.held d).keep rfl (List.filter_cons_of_neg (by simp [Ne.symm hd]))
        (Function.update_of_ne hd ..) fun _ _ hw _ => hw
  awaiting a w hw hp := by
    have hne := hi.other hw hp (c := c) (by simp [hc])
    exact (Function.update_of_ne hne ..).trans (hi.awaiting a w hw hp)
  chained := hi.chained.restack (List.Sublist.refl _)
  counted := hi.counted

theorem Inv.leave {after : CoroutineState} (hi : Inv s)
    (ha : after = .idle ∨ after = .finished) (hl : s.leave t after = some s') : Inv s' := by
  unfold State.leave at hl
  split at hl
  · next c rest hst =>
    cases hl
    obtain ⟨hc, ho⟩ := hi.of_body (t := t) (c := c) (by rw [hst]; exact List.mem_cons_self)
    constructor
    · intro d
      by_cases hd : d = c
      · subst hd
        refine ⟨none, ho.disown (fun u hu => ownedBy_other hu _) ?_, ?_⟩
        · exact (ho.of_top hst (by simp)).2
        · rcases ha with rfl | rfl <;> simp [State.Placed]
      · refine (hi.held d).keep rfl ?_ (Function.update_of_ne hd ..) fun _ _ hw _ => hw
        rw [hst, List.filter_cons_of_neg (by simp [Ne.symm hd])]
    · intro a w hw hp
      have hne := hi.other hw hp (c := c) (by simp [hc])
      exact (Function.update_of_ne hne ..).trans (hi.awaiting a w hw hp)
    · exact hi.chained.restack (by rw [hst, chain_body])
    · exact hi.counted
  · cases hl

theorem unused_spec (hu : s.unused k = true) :
    ∀ v ∈ s.awaits, v.phase ≠ .resumed → v.key ≠ k := by
  intro v hv hp
  have h := List.all_eq_true.mp hu v hv
  simpa [hp] using h

theorem Inv.await (hi : Inv s) (hl : s.await t k = some s') : Inv s' := by
  unfold State.await at hl
  split at hl
  · next c rest hst =>
    split at hl
    · next hu =>
      cases hl
      obtain ⟨hc, ho⟩ := hi.of_body (t := t) (c := c) (by rw [hst]; exact List.mem_cons_self)
      constructor
      · intro d
        by_cases hd : d = c
        · subst hd
          refine ⟨none, ho.disown (fun u hu => ownedBy_other hu _) ?_, ?_⟩
          · rw [List.filter_cons_of_neg (by simp)]
            exact (ho.of_top hst (by simp)).2
          · simp [State.Placed]
        · refine (hi.held d).keep rfl ?_ (Function.update_of_ne hd ..) fun _ _ hw _ =>
            append_some hw
          rw [hst, List.filter_cons_of_neg (by simp),
            List.filter_cons_of_neg (by simp [Ne.symm hd])]
      · intro a w hw hp
        rcases of_append hw with ha | ⟨rfl, rfl⟩
        · have hne := hi.other ha hp (c := c) (by simp [hc])
          exact (Function.update_of_ne hne ..).trans (hi.awaiting a w ha hp)
        · exact Function.update_self ..
      · exact hi.chained.push (unused_spec hu) (by rw [hst, chain_scope, chain_body])
      · intro a
        rw [hi.counted a]
        rcases Nat.lt_trichotomy a s.awaits.length with ha | rfl | ha
        · rw [List.getElem?_append_left ha]
        · simp [timesResumed]
        · rw [List.getElem?_eq_none (by omega), List.getElem?_eq_none (by simp; omega)]
    · cases hl
  · cases hl

theorem counted_modify {awaits : List Await} {f : Await → Await} {resumes : AwaitId → ℕ}
    (hi : ∀ a : AwaitId, resumes a = timesResumed awaits[a]?)
    (hf : ∀ w, awaits[a]? = some w → w.phase ≠ .resumed ∧ (f w).phase ≠ .resumed) :
    ∀ b : AwaitId, resumes b = timesResumed (awaits.modify a f)[b]? := by
  intro b
  rw [hi b, List.getElem?_modify]
  cases hb : awaits[b]? with
  | none => rfl
  | some w =>
    by_cases hab : a = b
    · subst hab
      simp [timesResumed, hf w hb]
    · simp [hab]

/-- A step that changes the await `a` of the coroutine `c` leaves the awaits of others alone. -/
theorem modify_other {f : Await → Await} (hw : s.awaits[a]? = some w) (hd : d ≠ w.coroutine) :
    ∀ (b : AwaitId) (v : Await), s.awaits[b]? = some v → v.coroutine = d →
      (s.awaits.modify a f)[b]? = some v := by
  intro b v hv hvd
  have hab : a ≠ b := by
    rintro rfl
    rw [hw] at hv
    cases hv
    exact hd hvd.symm
  rw [modify_some hv, if_neg hab]

theorem Inv.unhandledStopped {p : Coroutine} (hi : Inv s) (hw : s.awaits[a]? = some w)
    (hp : w.phase = .started) (hc : s.coroutines p = .idle) :
    Inv (s.unhandledStopped a w p) := by
  obtain ⟨hwc, ho⟩ := hi.of_started hw hp
  -- the coroutine that takes over waits for something else
  have hne : w.coroutine ≠ p := by
    rintro rfl
    rw [hwc] at hc
    cases hc
  constructor
  · intro d
    by_cases hdp : d = p
    · subst hdp
      refine ⟨none, hi.of_idle hc, ?_⟩
      simp [State.Placed, State.unhandledStopped, hw, hp]
    · by_cases hdw : d = w.coroutine
      · subst hdw
        exact ⟨none, ho, by simp [State.Placed, State.unhandledStopped, hne]⟩
      · refine (hi.held d).keep (Function.update_eq_self 0 _).symm rfl
          ?_ (modify_other hw hdw)
        simp [State.unhandledStopped, hdp, hdw]
  · intro b v hv hvp
    obtain ⟨u, hu, rfl⟩ := of_modify hv
    by_cases hab : a = b
    · subst hab
      simp [State.unhandledStopped]
    · simp only [hab, if_false] at hvp ⊢
      have h1 := hi.other hu hvp (c := p) (by simp [hc])
      have h2 := hi.other hu hvp (c := w.coroutine) (by simp [hwc, hab])
      simp only [State.unhandledStopped, Function.update_of_ne h1, Function.update_of_ne h2]
      exact hi.awaiting b u hu hvp
  · exact hi.chained.modify fun _ _ => ⟨rfl, id⟩
  · refine counted_modify hi.counted fun v hv => ?_
    rw [hw] at hv
    cases hv
    simp [hp]

/-- A handle that is on `stack` no more, or never was, is resumed. -/
theorem Inv.resume {o : Option (ThreadId × Frame)} (hi : Inv s)
    (hw : s.awaits[h.await]? = some w) (hc : w.coroutine = h.coroutine) (hp : w.phase ≠ .resumed)
    (ho : Sole (Frame.holds h.coroutine) s.frames o) (hu : ∀ u, u ≠ t → ownedBy o u = [])
    (hself : stack.filter (Frame.holds h.coroutine) = [])
    (hother : ∀ d, d ≠ h.coroutine →
      stack.filter (Frame.holds d) = (s.frames t).filter (Frame.holds d))
    (hn : (chain stack).Sublist (chain (s.frames t))) : Inv (s.resume t h stack) := by
  have hca := hi.awaiting _ w hw hp
  constructor
  · intro d
    by_cases hd : d = h.coroutine
    · subst hd
      refine ⟨some (t, .body h.coroutine), ho.own hu ?_, ?_⟩
      · rw [List.filter_cons_of_pos (by simp), hself]
      · simp [State.Placed, State.resume]
    · refine (hi.held d).keep rfl ?_ (Function.update_of_ne hd ..)
        (modify_other hw (by rw [hc]; exact hd))
      rw [List.filter_cons_of_neg (by simp [Ne.symm hd]), hother d hd]
  · intro b v hv hvp
    obtain ⟨u, hub, rfl⟩ := of_modify hv
    by_cases hab : h.await = b
    · simp [hab] at hvp
    · simp only [hab, if_false] at hvp ⊢
      have hne := hi.other hub hvp (c := h.coroutine) (by rw [← hc, hca]; simpa using hab)
      simp only [State.resume, Function.update_of_ne hne]
      exact hi.awaiting b u hub hvp
  · exact (hi.chained.modify (by simp)).restack (by simpa using hn)
  · intro b
    by_cases hab : h.await = b
    · subst hab
      have h0 : s.resumes h.await = 0 := by rw [hi.counted, hw]; simp [timesResumed, hp]
      simp [State.resume, h0, hw, timesResumed]
    · simp only [State.resume, Function.update_of_ne (Ne.symm hab),
        List.getElem?_modify_ne _ _ hab]
      exact hi.counted b

/-- The scope that `__defer` finds keeps no handle yet. -/
theorem Inv.slot_free (hi : Inv s) (hw : s.awaits[a]? = some w) (hp : w.phase = .started)
    {r : Option Handle} (hm : .scope w.key b r ∈ s.frames t) : r = none := by
  cases r with
  | none => rfl
  | some h =>
    obtain ⟨-, ⟨v, hv, -, hph, hk⟩, -⟩ := hi.of_scope hm
    -- two awaits with this address would be alive
    have hab := hi.chained.keys a h.await w v hw hv (by simp [hp]) (by simp [hph]) hk.symm
    rw [hab, hv] at hw
    cases hw
    rw [hp] at hph
    cases hph

theorem Inv.complete (hi : Inv s) (hw : s.awaits[a]? = some w) (hp : w.phase = .started) :
    Inv (s.complete t w.key ⟨w.coroutine, a⟩) := by
  obtain ⟨hwc, ho⟩ := hi.of_started hw hp
  unfold State.complete
  cases hd : defer w.key ⟨w.coroutine, a⟩ (s.frames t) with
  | none =>
    -- no scope of this thread has the address: resume here
    exact hi.resume hw rfl (by simp [hp]) ho (fun _ _ => rfl) (ho t) (fun _ _ => rfl)
      (List.Sublist.refl _)
  | some new =>
    -- the innermost scope with the address takes the handle, maybe one of an older await
    have hchain := chain_defer hd
    obtain ⟨upper, b, r, lower, hst, rfl⟩ := defer_some hd
    obtain rfl := hi.slot_free (t := t) (b := b) (r := r) hw hp (by rw [hst]; simp)
    constructor
    · intro d
      by_cases hdc : d = w.coroutine
      · subst hdc
        refine ⟨some (t, .scope w.key b (some ⟨w.coroutine, a⟩)), ho.own (fun _ _ => rfl) ?_, ?_⟩
        · have hnone := ho t
          rw [hst, List.filter_append, List.filter_cons_of_neg (by simp), ownedBy_none,
            List.append_eq_nil_iff] at hnone
          rw [List.filter_append, List.filter_cons_of_pos (by simp), hnone.1, hnone.2]
          rfl
        · simp [State.Placed, hwc, hw]
      · refine (hi.held d).keep rfl ?_ rfl (modify_other hw hdc)
        rw [hst, List.filter_append, List.filter_append,
          List.filter_cons_of_neg (by simp [Ne.symm hdc]), List.filter_cons_of_neg (by simp)]
    · intro c v hv hvp
      obtain ⟨u, hu, rfl⟩ := of_modify hv
      by_cases hac : a = c
      · subst hac
        rw [hw] at hu
        cases hu
        simpa using hwc
      · simp only [hac, if_false] at hvp ⊢
        exact hi.awaiting c u hu hvp
    · refine (hi.chained.modify (f := fun w => { w with phase := .completed })
        fun v hv => ⟨rfl, fun hr => ?_⟩).restack (by rw [hchain])
      rw [hw] at hv
      cases hv
      rw [hp] at hr
      cases hr
    · refine counted_modify hi.counted fun v hv => ?_
      rw [hw] at hv
      cases hv
      simp [hp]

theorem Inv.startReturns (hi : Inv s) (hl : step s (.startReturns t) = some s') : Inv s' := by
  simp only [step] at hl
  split at hl
  · next k b rest hst =>
    cases hl
    constructor
    · intro d
      refine (hi.held d).keep rfl ?_ rfl fun _ _ hw _ => hw
      rw [hst, List.filter_cons_of_neg (by simp)]
    · exact hi.awaiting
    · exact hi.chained.restack (by rw [hst, chain_scope]; exact List.sublist_cons_self ..)
    · exact hi.counted
  · next k b next rest hst =>
    cases hl
    obtain ⟨-, ⟨w, hw, hwc, hph, -⟩, ho⟩ :=
      hi.of_scope (t := t) (k := k) (b := b) (h := next) (by rw [hst]; exact List.mem_cons_self)
    refine hi.resume hw hwc (by simp [hph]) ho (fun u hu => ownedBy_other hu _)
      (ho.of_top hst (by simp)).2 (fun d hd => ?_) ?_
    · rw [hst, List.filter_cons_of_neg (by simp [Ne.symm hd])]
    · rw [hst, chain_scope]
      exact List.sublist_cons_self ..
  · cases hl

theorem Inv.step {l : Label} (hi : Inv s) (hl : Awaitables.step s l = some s') : Inv s' := by
  cases l with
  | enter t c =>
    simp only [Awaitables.step, Option.ite_none_right_eq_some, Option.some.injEq] at hl
    obtain ⟨hc, rfl⟩ := hl
    exact hi.enter hc
  | leave t => exact hi.leave (.inl rfl) hl
  | finish t => exact hi.leave (.inr rfl) hl
  | await t k => exact hi.await hl
  | complete t a handler =>
    simp only [Awaitables.step, Option.bind_eq_some_iff, Option.ite_none_right_eq_some] at hl
    obtain ⟨w, hw, hp, hl⟩ := hl
    cases handler with
    | none =>
      cases hl
      exact hi.complete hw hp
    | some p =>
      simp only [Option.ite_none_right_eq_some, Option.some.injEq] at hl
      obtain ⟨hc, rfl⟩ := hl
      have hw' : (s.unhandledStopped a w p).awaits[a]? = some { w with coroutine := p } := by
        simp [State.unhandledStopped, hw]
      exact (hi.unhandledStopped hw hp hc).complete hw' hp
  | startReturns t => exact hi.startReturns hl

/-! ## Every await is resumed once -/

theorem resume_resumes {x : AwaitId} (hx : (s.resume t h stack).resumes x ≠ s.resumes x) :
    x = h.await := by
  by_contra hne
  exact hx (Function.update_of_ne hne ..)

/-- A scope on the stack of the thread that resumes is in the chain below. -/
theorem mem_resume {x : AwaitId} {r : Option Handle}
    (hm : .scope k x r ∈ (s.resume t h stack).frames t) : (k, x) ∈ chain stack := by
  simp only [State.resume, Function.update_self, List.mem_cons, reduceCtorEq, false_or] at hm
  exact mem_chain hm

theorem Inv.complete_outside {x : AwaitId} {r : Option Handle} (hi : Inv s)
    (hw : s.awaits[a]? = some w)
    (hx : (s.complete t w.key ⟨w.coroutine, a⟩).resumes x ≠ s.resumes x) :
    .scope k x r ∉ (s.complete t w.key ⟨w.coroutine, a⟩).frames t := by
  unfold State.complete at hx ⊢
  cases hd : defer w.key ⟨w.coroutine, a⟩ (s.frames t) with
  | some new => simp [hd] at hx
  | none =>
    simp only [hd] at hx ⊢
    obtain rfl : x = a := resume_resumes hx
    intro hm
    have hchain := mem_resume hm
    -- its scope would have the address that was not found
    obtain ⟨v, hv, hk⟩ := hi.chained.scopes t _ hchain
    rw [hw] at hv
    cases hv
    exact defer_none hd _ hchain hk.symm

theorem Inv.startReturns_outside {x : AwaitId} {r : Option Handle} (hi : Inv s)
    (hl : Awaitables.step s (.startReturns t) = some s') (hx : s'.resumes x ≠ s.resumes x) :
    .scope k x r ∉ s'.frames t := by
  simp only [Awaitables.step] at hl
  split at hl
  · cases hl
    exact absurd rfl hx
  · next k' b next rest hst =>
    cases hl
    obtain rfl := resume_resumes hx
    intro hm
    have hchain := mem_resume hm
    obtain ⟨-, ⟨w, hw, -, hph, hk⟩, -⟩ :=
      hi.of_scope (t := t) (k := k') (b := b) (h := next) (by rw [hst]; exact List.mem_cons_self)
    obtain ⟨v, hv, hkv⟩ := hi.chained.scopes t (k, next.await)
      (by rw [hst, chain_scope]; exact List.mem_cons_of_mem _ hchain)
    rw [hw] at hv
    cases hv
    have hnested := hi.chained.nested t
    rw [hst, chain_scope, List.pairwise_cons] at hnested
    -- a scope of the await itself below would have the address of the one that returns
    obtain ⟨u, hu, hru⟩ := hnested.1 _ hchain (hk.symm.trans hkv)
    rw [hw] at hu
    cases hu
    rw [hph] at hru
    cases hru
  · cases hl

/-- What awaiting promises about the handles and the stacks. -/
structure ResumedOnce (s : State) : Prop where
  /-- At most one frame of all threads runs a coroutine or keeps a handle of it. -/
  held : ∀ c, ∃ o, Sole (Frame.holds c) s.frames o
  /-- An await that is not resumed keeps its coroutine off all stacks. -/
  suspended : ∀ (a : AwaitId) (w : Await), s.awaits[a]? = some w → w.phase ≠ .resumed →
    s.resumes a = 0 ∧ ∀ t, .body w.coroutine ∉ s.frames t
  once : ∀ (a : AwaitId) (w : Await), s.awaits[a]? = some w → w.phase = .resumed →
    s.resumes a = 1
  /-- A completion is not lost: it has resumed the coroutine, or a `start` that has not returned
  keeps the handle. -/
  kept : ∀ (a : AwaitId) (w : Await), s.awaits[a]? = some w → w.phase = .completed →
    ∃ t b, .scope w.key b (some ⟨w.coroutine, a⟩) ∈ s.frames t
  quiet : (∀ t, s.frames t = []) → ∀ (a : AwaitId) (w : Await), s.awaits[a]? = some w →
    w.phase ≠ .started → s.resumes a = 1
  /-- No coroutine is resumed on top of the `start` of its own await. -/
  outside : ∀ (l : Label) (s' : State) (a : AwaitId), step s l = some s' →
    s'.resumes a ≠ s.resumes a → ∀ k r, .scope k a r ∉ s'.frames l.thread

theorem Inv.outside {l : Label} {x : AwaitId} {r : Option Handle} (hi : Inv s)
    (hl : Awaitables.step s l = some s') (hx : s'.resumes x ≠ s.resumes x) :
    .scope k x r ∉ s'.frames l.thread := by
  cases l with
  | enter t c =>
    simp only [Awaitables.step, Option.ite_none_right_eq_some, Option.some.injEq] at hl
    obtain ⟨-, rfl⟩ := hl
    exact absurd rfl hx
  | leave t | finish t =>
    simp only [Awaitables.step, State.leave] at hl
    split at hl <;> cases hl
    exact absurd rfl hx
  | await t k =>
    simp only [Awaitables.step, State.await] at hl
    split at hl
    · simp only [Option.ite_none_right_eq_some, Option.some.injEq] at hl
      obtain ⟨-, rfl⟩ := hl
      exact absurd rfl hx
    · cases hl
  | complete t a handler =>
    simp only [Awaitables.step, Option.bind_eq_some_iff, Option.ite_none_right_eq_some] at hl
    obtain ⟨w, hw, hp, hl⟩ := hl
    cases handler with
    | none =>
      cases hl
      exact hi.complete_outside hw hx
    | some p =>
      simp only [Option.ite_none_right_eq_some, Option.some.injEq] at hl
      obtain ⟨hc, rfl⟩ := hl
      have hw' : (s.unhandledStopped a w p).awaits[a]? = some { w with coroutine := p } := by
        simp [State.unhandledStopped, hw]
      exact (hi.unhandledStopped hw hp hc).complete_outside hw' hx
  | startReturns t => exact hi.startReturns_outside hl hx

theorem inv_of_reachable (h : Reachable step Initial s) : Inv s := by
  refine h.preserves ?_ fun s l s' hi hs => hi.step hs
  rintro s rfl
  exact Inv.initial

theorem Inv.kept (hi : Inv s) (hw : s.awaits[a]? = some w) (hp : w.phase = .completed) :
    ∃ t b, .scope w.key b (some ⟨w.coroutine, a⟩) ∈ s.frames t := by
  have hc := hi.awaiting a w hw (by simp [hp])
  obtain ⟨o, ho, hpl⟩ := hi.held w.coroutine
  unfold State.Placed at hpl
  rw [hc] at hpl
  obtain ⟨v, hv, -, ⟨hs, -⟩ | ⟨-, t, b, rfl⟩⟩ := hpl <;> rw [hw] at hv <;> cases hv
  · rw [hp] at hs
    cases hs
  · refine ⟨t, b, (List.mem_filter (p := Frame.holds w.coroutine)).mp ?_ |>.1⟩
    rw [ho t, ownedBy_self]
    exact List.mem_singleton_self _

theorem awaits_resume_once (h : Reachable step Initial s) : ResumedOnce s := by
  have hi := inv_of_reachable h
  have honce : ∀ (a : AwaitId) (w : Await), s.awaits[a]? = some w → w.phase = .resumed →
      s.resumes a = 1 := by
    intro a w hw hp
    rw [hi.counted a, hw]
    simp [timesResumed, hp]
  refine ⟨fun c => ?_, fun a w hw hp => ⟨?_, fun t hm => ?_⟩, honce, fun a w => hi.kept,
    fun hs a w hw hp => ?_, fun l s' a hl hx k r => hi.outside hl hx⟩
  · obtain ⟨o, ho, -⟩ := hi.held c
    exact ⟨o, ho⟩
  · rw [hi.counted a, hw]
    simp [timesResumed, hp]
  · have hrun := (hi.of_body hm).1
    rw [hi.awaiting a w hw hp] at hrun
    cases hrun
  · cases hph : w.phase with
    | started => exact absurd hph hp
    | completed =>
      obtain ⟨t, b, hm⟩ := hi.kept hw hph
      rw [hs t] at hm
      cases hm
    | resumed => exact honce a w hw hph

/-- The second await has the address of the first one, whose `start` has not returned yet when the
sender of the second completes on that thread. -/
theorem awaits_resume_once_reused : ∃ s : State, Reachable step Initial s ∧
    s.resumes 0 = 1 ∧ s.resumes 1 = 1 ∧ s.coroutines 5 = .finished ∧ ResumedOnce s := by
  obtain ⟨s, hs, h0, h1, hc⟩ : ∃ s : State, run step {}
      [.enter 0 5, .await 0 7, .complete 1 0 none, .await 1 7, .startReturns 1,
        .complete 0 1 none, .startReturns 0, .finish 0] = some s ∧
      s.resumes 0 = 1 ∧ s.resumes 1 = 1 ∧ s.coroutines 5 = .finished := ⟨_, rfl, rfl, rfl, rfl⟩
  have hr : Reachable step Initial s := ⟨_, rfl, _, hs⟩
  exact ⟨s, hr, h0, h1, hc, awaits_resume_once hr⟩

end

end CCForge.Senders.Awaitables
