import CCForge.Timer.Delivery
import CCForge.Timer.Lives

/-!
# The invariant of all timer operations

Every operation keeps the invariant of its view, since a step is about one operation
and leaves the views of the others alone. The books are what the operations share:
the number of pending items and the order of the frames on a stack.
-/

namespace CCForge.Timer.Operations

variable {s s' : State} {t : ThreadId} {op op' : OpId} {f : Frame} {new rest : List Frame}

/-! ## Views -/

def framesOf (op : OpId) (frames : List Frame) : List Frame :=
  frames.filter fun f => f.op = op

def State.view (s : State) (op : OpId) : View where
  stack t := framesOf op (s.stack t)
  op := s.ops op
  queued := op ∈ s.shared.items.map Item.id
  started := op ∈ s.started
  discarded := op ∈ s.discarded
  completed := op ∈ s.completed.map Prod.fst
  abandoned := op ∈ s.abandoned
  destroying := op ∈ s.destroying
  outside := (op, false) ∈ s.destroyed

theorem framesOf_cons_self (h : f.op = op) : framesOf op (f :: rest) = f :: framesOf op rest := by
  simp [framesOf, h]

theorem framesOf_cons_other (h : f.op ≠ op) : framesOf op (f :: rest) = framesOf op rest := by
  simp [framesOf, h]

theorem framesOf_update (stack : ThreadId → List Frame) (t : ThreadId) (new : List Frame) :
    (fun u => framesOf op (Function.update stack t new u)) =
      Function.update (fun u => framesOf op (stack u)) t (framesOf op new) := by
  funext u
  by_cases hu : u = t
  · subst hu
    simp
  · simp [Function.update_of_ne hu]

/-- A step of thread `t` that leaves an operation alone. -/
theorem view_other (hstack : s'.stack = Function.update s.stack t new)
    (hnew : framesOf op new = framesOf op (s.stack t)) (hop : s'.ops op = s.ops op)
    (hq : op ∈ s'.shared.items.map Item.id ↔ op ∈ s.shared.items.map Item.id)
    (hs : op ∈ s'.started ↔ op ∈ s.started) (hd : op ∈ s'.discarded ↔ op ∈ s.discarded)
    (hc : op ∈ s'.completed.map Prod.fst ↔ op ∈ s.completed.map Prod.fst)
    (ha : op ∈ s'.abandoned ↔ op ∈ s.abandoned)
    (hde : op ∈ s'.destroying ↔ op ∈ s.destroying)
    (ho : (op, false) ∈ s'.destroyed ↔ (op, false) ∈ s.destroyed) : s'.view op = s.view op := by
  refine View.ext ?_ hop (propext hq) (propext hs) (propext hd) (propext hc) (propext ha)
    (propext hde) (propext ho)
  show (fun u => framesOf op (s'.stack u)) = fun u => framesOf op (s.stack u)
  rw [hstack, framesOf_update, hnew]
  exact Function.update_eq_self t _

/-! ## Books -/

namespace Frame

/-- A frame of the worker that has still to account for an item. -/
def unaccounted : Frame → Bool
  | .deliver _ _ | .completing _ .worker | .publish _ .worker | .account _ => true
  | _ => false

end Frame

/-- The items that the frames have still to account for. -/
def inHand (frames : List Frame) : List OpId := (frames.filter Frame.unaccounted).map Frame.op

theorem inHand_cons_of_unaccounted (h : f.unaccounted = true) :
    inHand (f :: rest) = f.op :: inHand rest := by
  simp [inHand, h]

theorem inHand_cons_of_accounted (h : f.unaccounted = false) :
    inHand (f :: rest) = inHand rest := by
  simp [inHand, h]

structure Books (s : State) : Prop where
  /-- Only the users' code is interrupted by other calls. -/
  nested : ∀ t, ∀ f ∈ (s.stack t).tail, f.isCompleting = true
  ids : (s.shared.items.map Item.id).Nodup
  onWorker : ∀ t, inHand (s.stack t) ≠ [] → t = worker
  pending : s.shared.pending = s.shared.items.length + (inHand (s.stack worker)).length
  line : (s.accepted : Multiset OpId) = (s.shared.items.map Item.id : List OpId) +
    inHand (s.stack worker) + s.discarded + s.finished
  accepted : s.accepted.Nodup
  handed : ∀ op ∈ s.accepted, op ∈ s.started ∧ (s.ops op).inStart = false
  once : (s.completed.map Prod.fst).Nodup
  exited : s.exited = true → s.shared.stop = true ∧ s.shared.items = []

/-- A step of thread `t` that leaves the data behind the mutex alone. -/
theorem Books.restack (h : Books s) (hstack : s'.stack = Function.update s.stack t new)
    (hn : ∀ f ∈ new.tail, f.isCompleting = true) (hu : inHand new = inHand (s.stack t))
    (hsh : s'.shared = s.shared) (hacc : s'.accepted = s.accepted)
    (hdisc : s'.discarded = s.discarded) (hfin : s'.finished = s.finished)
    (hex : s'.exited = s.exited) (hst : ∀ op ∈ s.started, op ∈ s'.started)
    (hin : ∀ op ∈ s.started, (s.ops op).inStart = false → (s'.ops op).inStart = false)
    (honce : (s'.completed.map Prod.fst).Nodup) : Books s' := by
  have hhand : ∀ u, inHand (s'.stack u) = inHand (s.stack u) := by
    intro u
    rw [hstack]
    by_cases hut : u = t
    · subst hut
      rw [Function.update_self, hu]
    · rw [Function.update_of_ne hut]
  refine ⟨?_, by rw [hsh]; exact h.ids, ?_, ?_, ?_, by rw [hacc]; exact h.accepted, ?_, honce, ?_⟩
  · intro u g hg
    rw [hstack] at hg
    by_cases hut : u = t
    · subst hut
      rw [Function.update_self] at hg
      exact hn g hg
    · rw [Function.update_of_ne hut] at hg
      exact h.nested u g hg
  · intro u hne
    rw [hhand u] at hne
    exact h.onWorker u hne
  · rw [hsh, hhand]
    exact h.pending
  · rw [hacc, hsh, hhand, hdisc, hfin]
    exact h.line
  · intro op hop
    rw [hacc] at hop
    obtain ⟨h₁, h₂⟩ := h.handed op hop
    exact ⟨hst op h₁, hin op h₁ h₂⟩
  · rw [hex, hsh]
    exact h.exited

/-- Under the users' code there are only interrupted completions. -/
theorem Books.foreign (h : Books s) (hf : foreign t (s.stack t) = true) :
    ∀ g ∈ s.stack t, g.isCompleting = true := by
  intro g hg
  have hn := h.nested t
  revert hf hg hn
  cases s.stack t with
  | nil => intro _ hg; cases hg
  | cons a l =>
    intro hf hg hn
    rcases List.mem_cons.mp hg with rfl | hg
    · revert hf
      cases g <;> simp [Operations.foreign, Frame.isCompleting]
    · exact hn g hg

theorem tail_of_cons (h : Books s) (htop : s.stack t = f :: rest) :
    ∀ g ∈ rest, g.isCompleting = true := by
  intro g hg
  apply h.nested t
  rw [htop]
  exact hg

theorem Books.top_tail (h : Books s) (htop : s.stack t = f :: rest) :
    ∀ g ∈ rest.tail, g.isCompleting = true :=
  fun g hg => tail_of_cons h htop g (List.mem_of_mem_tail hg)

/-! ## The invariant -/

structure Inv (s : State) : Prop where
  lives : ∀ op, ∃ o d, Lives (s.view op) o d
  books : Books s

theorem inv_initial (now : ℤ) : Inv { clock := now } := by
  refine ⟨?_, ?_⟩
  · intro op
    refine ⟨none, none, fun t => rfl, ⟨rfl, .inl ⟨nofun, nofun, nofun, rfl⟩⟩, fun t => rfl, nofun,
      ⟨nofun, ?_⟩, nofun, nofun, nofun, nofun⟩
    rintro (hc | hc) <;> cases hc
  · refine ⟨nofun, List.nodup_nil, ?_, rfl, rfl, List.nodup_nil, nofun, List.nodup_nil, nofun⟩
    intro t ht
    exact absurd rfl ht

/-- A step about `op` keeps the invariant if it keeps that of `op` and the books. -/
theorem Inv.step (h : Inv s) (op : OpId) (hother : ∀ op', op' ≠ op → s'.view op' = s.view op')
    (hop : ∃ o d, Lives (s'.view op) o d) (hb : Books s') : Inv s' := by
  refine ⟨?_, hb⟩
  intro op'
  by_cases hne : op' = op
  · rw [hne]
    exact hop
  · rw [hother op' hne]
    exact h.lives op'

end CCForge.Timer.Operations
