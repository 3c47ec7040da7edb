import CCForge.AsyncScope.Model
import CCForge.Lib.Updates
import Mathlib.Data.List.Perm.Subperm

/-!
# The invariant of the scope

The two owners of a node go through few stages together. `Fits` lists the pairs that
occur, and what the node looks like in each. The histories of the scope say of every
spawn what its stage says.
-/

namespace CCForge.AsyncScope

variable {s s' : State} {id : SpawnId} {x : Spawn} {error : Option Error}

/-! ## Stages -/

namespace Spawn

/-- The stages of a spawn, with what holds of its node. -/
def Fits (x : Spawn) : Prop :=
  match x.starter, x.completer with
  | .idle, .idle | .refused, .idle | .acquired, .idle => x.alive = false ∧ x.completed = false
  | .failed error, .idle =>
    x.alive = false ∧ x.completed = false ∧ x.outcome = some (some error)
  | .abandoned, .idle => x.alive = false ∧ x.completed = false
  | .constructed, .idle => x.alive = true ∧ x.refs = 1 ∧ x.completed = false
  | .starting, .idle => x.alive = true ∧ x.refs = 2 ∧ x.completed = false
  | .starting, .claimed error =>
    x.alive = true ∧ x.refs = 2 ∧ x.completed = true ∧ x.outcome = some error
  | .starting, .after .returned =>
    x.alive = true ∧ x.refs = 1 ∧ x.completed = true ∧ x.outcome = some x.completionError
  | .after .returned, .idle => x.alive = true ∧ x.refs = 1 ∧ x.completed = false
  | .after .returned, .claimed error =>
    x.alive = true ∧ x.refs = 1 ∧ x.completed = true ∧ x.outcome = some error
  | .after .destroying, .after .returned | .after .returned, .after .destroying =>
    x.alive = true ∧ x.refs = 0 ∧ x.completed = true ∧ x.outcome = some x.completionError
  | .after (.publishing error), .after .returned | .after .returned, .after (.publishing error) =>
    x.alive = false ∧ x.completed = true ∧ x.outcome = some error
  | .after .returned, .after .returned => x.alive = false ∧ x.completed = true
  | _, _ => False

/-- The node was destroyed. -/
def isDestroyed (x : Spawn) : Bool :=
  match x.starter, x.completer with
  | .after (.publishing _), _ | _, .after (.publishing _) | .after .returned, .after .returned => true
  | _, _ => false

/-- The scope was told. -/
def isPublished (x : Spawn) : Bool :=
  match x.starter, x.completer with
  | .abandoned, _ | .after .returned, .after .returned => true
  | _, _ => false

/-- The spawn holds a share of the count. -/
def isAcquired (x : Spawn) : Bool :=
  match x.starter with
  | .idle | .refused => false
  | _ => true

theorem isAcquired_of_isPublished (h : x.isPublished = true) : x.isAcquired = true := by
  obtain ⟨starter, completer, alive, refs, completed, completionError, outcome⟩ := x
  cases starter <;> simp_all [isPublished, isAcquired]

/-- A step of a spawn that the histories of the scope do not record. -/
structure Moves (x y : Spawn) : Prop where
  fits : y.Fits
  acquired : y.isAcquired = x.isAcquired
  destroyed : y.isDestroyed = x.isDestroyed
  published : y.isPublished = x.isPublished
  outcome : y.isPublished = true → y.outcome = x.outcome

/-- The spawn is at one of the stages before its node has been started. -/
theorem Fits.completer_idle (h : x.Fits) (hs : x.starter = .idle ∨ x.starter = .acquired ∨
    (∃ error, x.starter = .failed error) ∨ x.starter = .constructed) : x.completer = .idle := by
  obtain ⟨starter, completer, alive, refs, completed, completionError, outcome⟩ := x
  rcases hs with hs | hs | ⟨error, hs⟩ | hs <;> dsimp only at hs <;> subst hs <;>
    cases completer <;> simp_all [Fits]

theorem moves_refused (h : x.Fits) (hs : x.starter = .idle) :
    x.Moves { x with starter := .refused } := by
  have hc := h.completer_idle (.inl hs)
  obtain ⟨starter, completer, alive, refs, completed, completionError, outcome⟩ := x
  dsimp only at hs hc
  subst hs hc
  exact ⟨h, rfl, rfl, rfl, fun _ => rfl⟩

theorem moves_constructed (h : x.Fits) (hs : x.starter = .acquired) :
    x.Moves { x with starter := .constructed, alive := true, refs := 1 } := by
  have hc := h.completer_idle (.inr (.inl hs))
  obtain ⟨starter, completer, alive, refs, completed, completionError, outcome⟩ := x
  dsimp only at hs hc
  subst hs hc
  exact ⟨⟨rfl, rfl, h.2⟩, rfl, rfl, rfl, fun _ => rfl⟩

theorem moves_failed (h : x.Fits) (hs : x.starter = .acquired) (error : Error) :
    x.Moves { x with starter := .failed error, outcome := some (some error) } := by
  have hc := h.completer_idle (.inr (.inl hs))
  obtain ⟨starter, completer, alive, refs, completed, completionError, outcome⟩ := x
  dsimp only at hs hc
  subst hs hc
  exact ⟨⟨h.1, h.2, rfl⟩, rfl, rfl, rfl, nofun⟩

theorem moves_start (h : x.Fits) (hs : x.starter = .constructed) :
    x.alive = true ∧ x.Moves { x.addRef with starter := .starting } := by
  have hc := h.completer_idle (.inr (.inr (.inr hs)))
  obtain ⟨starter, completer, alive, refs, completed, completionError, outcome⟩ := x
  dsimp only at hs hc
  subst hs hc
  obtain ⟨ha, hr, hcomp⟩ := h
  exact ⟨ha, ⟨ha, congrArg (· + 1) hr, hcomp⟩, rfl, rfl, rfl, fun _ => rfl⟩

theorem moves_startReturns (h : x.Fits) (hs : x.starter = .starting) :
    x.alive = true ∧ x.Moves (x.release .starter) := by
  obtain ⟨starter, completer, alive, refs, completed, completionError, outcome⟩ := x
  dsimp only at hs
  subst hs
  -- the call drops the last reference when the signal is over
  cases completer with
  | idle =>
    obtain ⟨ha, rfl, hcomp⟩ := h
    exact ⟨ha, ⟨ha, rfl, hcomp⟩, rfl, rfl, rfl, fun _ => rfl⟩
  | claimed error =>
    obtain ⟨ha, rfl, hcomp⟩ := h
    exact ⟨ha, ⟨ha, rfl, hcomp⟩, rfl, rfl, rfl, fun _ => rfl⟩
  | after tail =>
    cases tail with
    | destroying => cases h
    | publishing error => cases h
    | returned =>
      obtain ⟨ha, rfl, hcomp⟩ := h
      exact ⟨ha, ⟨ha, rfl, hcomp⟩, rfl, rfl, rfl, fun _ => rfl⟩

theorem moves_signal (h : x.Fits) (ha : x.alive = true) (hs : x.starter ≠ .constructed)
    (hc : x.completed = false) (error : Option Error) :
    x.Moves { x with completed := true, completer := .claimed error, outcome := some error } := by
  obtain ⟨starter, completer, alive, refs, completed, completionError, outcome⟩ := x
  dsimp only at ha hs hc
  subst ha hc
  have hstage : completer = .idle ∧
      ((starter = .starting ∧ refs = 2) ∨ (starter = .after .returned ∧ refs = 1)) := by
    cases starter with
    | starting => cases completer with
      | after tail => cases tail <;> simp_all [Fits]
      | _ => simp_all [Fits]
    | after tail =>
      cases tail <;> cases completer with
      | after tail => cases tail <;> simp_all [Fits]
      | _ => simp_all [Fits]
    | _ => cases completer <;> simp_all [Fits]
  obtain ⟨rfl, ⟨rfl, rfl⟩ | ⟨rfl, rfl⟩⟩ := hstage
  · exact ⟨⟨rfl, rfl, rfl, rfl⟩, rfl, rfl, rfl, nofun⟩
  · exact ⟨⟨rfl, rfl, rfl, rfl⟩, rfl, rfl, rfl, nofun⟩

theorem moves_complete (h : x.Fits) {error : Option Error} (hc : x.completer = .claimed error) :
    x.alive = true ∧ x.Moves ({ x with completionError := error }.release .completer) := by
  obtain ⟨starter, completer, alive, refs, completed, completionError, outcome⟩ := x
  dsimp only at hc
  subst hc
  -- the signal drops the last reference when the call has returned
  cases starter with
  | starting =>
    obtain ⟨ha, rfl, hcomp⟩ := h
    exact ⟨ha, ⟨ha, rfl, hcomp⟩, rfl, rfl, rfl, nofun⟩
  | after tail =>
    cases tail with
    | destroying => cases h
    | publishing error => cases h
    | returned =>
      obtain ⟨ha, rfl, hcomp⟩ := h
      exact ⟨ha, ⟨ha, rfl, hcomp⟩, rfl, rfl, rfl, nofun⟩
  | _ => cases h

/-- The owner that dropped the last reference is alone with the node. -/
theorem Fits.destroying (h : x.Fits) {side : Side} (ht : x.tail side = some .destroying) :
    x.alive = true ∧ x.isDestroyed = false ∧ x.isPublished = false ∧ x.isAcquired = true ∧
      ({ x with alive := false, completionError := none }.setTail (.publishing x.completionError)
        side).Fits ∧
      ({ x with alive := false, completionError := none }.setTail (.publishing x.completionError)
        side).isDestroyed = true ∧
      ({ x with alive := false, completionError := none }.setTail (.publishing x.completionError)
        side).isPublished = false ∧
      ({ x with alive := false, completionError := none }.setTail (.publishing x.completionError)
        side).isAcquired = true := by
  obtain ⟨starter, completer, alive, refs, completed, completionError, outcome⟩ := x
  cases side with
  | starter =>
    cases starter with
    | after tail =>
      cases ht
      cases completer with
      | after tail =>
        cases tail with
        | returned =>
          obtain ⟨ha, hr, hc, ho⟩ := h
          exact ⟨ha, rfl, rfl, rfl, ⟨rfl, hc, ho⟩, rfl, rfl, rfl⟩
        | _ => cases h
      | _ => cases h
    | _ => cases ht
  | completer =>
    cases completer with
    | after tail =>
      cases ht
      cases starter with
      | after tail =>
        cases tail with
        | returned =>
          obtain ⟨ha, hr, hc, ho⟩ := h
          exact ⟨ha, rfl, rfl, rfl, ⟨rfl, hc, ho⟩, rfl, rfl, rfl⟩
        | _ => cases h
      | _ => cases h
    | _ => cases ht

/-- The owner that destroyed the node is the last to stand anywhere. -/
theorem Fits.publishing (h : x.Fits) {side : Side} {error : Option Error}
    (ht : x.tail side = some (.publishing error)) :
    x.isDestroyed = true ∧ x.isPublished = false ∧ x.isAcquired = true ∧
      x.outcome = some error ∧ (x.setTail .returned side).Fits ∧
      (x.setTail .returned side).isDestroyed = true ∧
      (x.setTail .returned side).isPublished = true ∧
      (x.setTail .returned side).isAcquired = true := by
  obtain ⟨starter, completer, alive, refs, completed, completionError, outcome⟩ := x
  cases side with
  | starter =>
    cases starter with
    | after tail =>
      cases ht
      cases completer with
      | after tail =>
        cases tail with
        | returned =>
          obtain ⟨ha, hc, ho⟩ := h
          exact ⟨rfl, rfl, rfl, ho, ⟨ha, hc⟩, rfl, rfl, rfl⟩
        | _ => cases h
      | _ => cases h
    | _ => cases ht
  | completer =>
    cases completer with
    | after tail =>
      cases ht
      cases starter with
      | after tail =>
        cases tail with
        | returned =>
          obtain ⟨ha, hc, ho⟩ := h
          exact ⟨rfl, rfl, rfl, ho, ⟨ha, hc⟩, rfl, rfl, rfl⟩
        | _ => cases h
      | _ => cases h
    | _ => cases ht

end Spawn

/-! ## The invariant -/

structure Inv (s : State) : Prop where
  fits : ∀ id, (s.spawns id).Fits
  acquired : ∀ id, id ∈ s.acquired ↔ (s.spawns id).isAcquired = true
  destroyed : ∀ id, id ∈ s.destroyed ↔ (s.spawns id).isDestroyed = true
  published : ∀ id, id ∈ s.published.map Prod.fst ↔ (s.spawns id).isPublished = true
  outcome : ∀ id error, (id, error) ∈ s.published → (s.spawns id).outcome = some error
  acquiredOnce : s.acquired.Nodup
  destroyedOnce : s.destroyed.Nodup
  publishedOnce : (s.published.map Prod.fst).Nodup
  active : s.shared.active + s.published.length = s.acquired.length
  firstError : s.shared.firstError = s.published.findSome? Prod.snd
  fault : s.fault = false

theorem inv_initial : Inv {} := by
  refine ⟨?_, ?_, ?_, ?_, nofun, List.nodup_nil, List.nodup_nil, List.nodup_nil, rfl, rfl, rfl⟩
  · intro id
    exact ⟨rfl, rfl⟩
  · intro id
    simp [Spawn.isAcquired]
  · intro id
    simp [Spawn.isDestroyed]
  · intro id
    simp [Spawn.isPublished]

theorem Inv.setSpawn (h : Inv s) (hm : (s.spawns id).Moves x) : Inv (s.setSpawn id x) := by
  obtain ⟨hx, ha, hd, hp, ho⟩ := hm
  refine ⟨?_, ?_, ?_, ?_, ?_, h.acquiredOnce, h.destroyedOnce, h.publishedOnce, h.active,
    h.firstError, h.fault⟩
  · exact forall_update (P := fun _ (y : Spawn) => y.Fits) (fun id' _ => h.fits id') hx
  · refine forall_update (P := fun id' (y : Spawn) => id' ∈ s.acquired ↔ y.isAcquired = true)
      (fun id' _ => h.acquired id') ?_
    rw [ha]
    exact h.acquired id
  · refine forall_update (P := fun id' (y : Spawn) => id' ∈ s.destroyed ↔ y.isDestroyed = true)
      (fun id' _ => h.destroyed id') ?_
    rw [hd]
    exact h.destroyed id
  · refine forall_update (P := fun id' (y : Spawn) => id' ∈ s.published.map Prod.fst ↔ y.isPublished = true)
      (fun id' _ => h.published id') ?_
    rw [hp]
    exact h.published id
  · refine forall_update (P := fun id' (y : Spawn) => ∀ error, (id', error) ∈ s.published →
      y.outcome = some error) (fun id' _ => h.outcome id') ?_
    intro error hm
    have hpub : x.isPublished = true := by
      rw [hp]
      exact (h.published id).mp (List.mem_map.mpr ⟨_, hm, rfl⟩)
    rw [ho hpub]
    exact h.outcome id error hm

/-- While a spawn is acquired and not published, the count is positive. -/
theorem Inv.active_pos (h : Inv s) (ha : (s.spawns id).isAcquired = true)
    (hp : (s.spawns id).isPublished = false) : 0 < s.shared.active := by
  have hnot : id ∉ s.published.map Prod.fst := by
    intro hm
    have hpub := (h.published id).mp hm
    rw [hp] at hpub
    cases hpub
  have hnodup : (id :: s.published.map Prod.fst).Nodup :=
    List.nodup_cons.mpr ⟨hnot, h.publishedOnce⟩
  have hsub : id :: s.published.map Prod.fst ⊆ s.acquired := by
    intro id' hm
    rcases List.mem_cons.mp hm with rfl | hm
    · exact (h.acquired id').mpr ha
    · exact (h.acquired id').mpr (Spawn.isAcquired_of_isPublished ((h.published id').mp hm))
  have hlen := (List.subperm_of_subset hnodup hsub).length_le
  have hactive := h.active
  simp only [List.length_cons, List.length_map] at hlen
  omega

/-! ## Sections of the scope -/

theorem Shared.complete_active {s : Shared} (error : Option Error) :
    (s.complete error).active = s.active - 1 := by
  unfold Shared.complete
  dsimp only
  split_ifs with he hpos hpos
  · rfl
  · have hzero : ¬0 < s.active := hpos
    show s.active = s.active - 1
    omega
  · rfl
  · omega

theorem Shared.complete_firstError {s : Shared} (error : Option Error) :
    (s.complete error).firstError = s.firstError.or error := by
  unfold Shared.complete
  dsimp only
  cases hf : s.firstError with
  | none => cases error <;> split_ifs <;> simp_all
  | some e => split_ifs <;> simp_all

theorem Shared.complete_closed {s : Shared} (error : Option Error) :
    (s.complete error).closed = s.closed := by
  unfold Shared.complete
  dsimp only
  split_ifs <;> rfl

theorem inv_acquire (h : Inv s) (hidle : (s.spawns id).starter = .idle) :
    Inv { s.setSpawn id { s.spawns id with starter := .acquired } with
      shared := { s.shared with active := s.shared.active + 1 }
      acquired := s.acquired ++ [id] } := by
  have hc := (h.fits id).completer_idle (.inl hidle)
  have hx : ({ s.spawns id with starter := .acquired } : Spawn).Fits ∧
      (s.spawns id).isAcquired = false ∧ (s.spawns id).isDestroyed = false ∧
      (s.spawns id).isPublished = false := by
    have hfit := h.fits id
    revert hfit hidle hc
    generalize s.spawns id = x
    obtain ⟨starter, completer, alive, refs, completed, completionError, outcome⟩ := x
    rintro ⟨⟩ ⟨⟩ hfit
    exact ⟨hfit, rfl, rfl, rfl⟩
  obtain ⟨hfit, ha, hd, hp⟩ := hx
  have hnot : id ∉ s.acquired := by
    rw [h.acquired, ha]
    simp
  refine ⟨?_, ?_, ?_, ?_, ?_, ?_, h.destroyedOnce, h.publishedOnce, ?_, h.firstError, h.fault⟩
  · exact forall_update (P := fun _ (y : Spawn) => y.Fits) (fun id' _ => h.fits id') hfit
  · refine forall_update (P := fun id' (y : Spawn) => id' ∈ s.acquired ++ [id] ↔ y.isAcquired = true) ?_ ?_
    · intro id' hne
      rw [mem_append_of_ne hne]
      exact h.acquired id'
    · simp [Spawn.isAcquired]
  · refine forall_update (P := fun id' (y : Spawn) => id' ∈ s.destroyed ↔ y.isDestroyed = true)
      (fun id' _ => h.destroyed id') ?_
    rw [h.destroyed id, hd]
    simp [Spawn.isDestroyed, hc]
  · refine forall_update (P := fun id' (y : Spawn) => id' ∈ s.published.map Prod.fst ↔ y.isPublished = true)
      (fun id' _ => h.published id') ?_
    rw [h.published id, hp]
    simp [Spawn.isPublished]
  · exact forall_update (P := fun id' (y : Spawn) => ∀ error, (id', error) ∈ s.published →
      y.outcome = some error) (fun id' _ => h.outcome id') (h.outcome id)
  · exact nodup_snoc h.acquiredOnce hnot
  · have hactive := h.active
    show s.shared.active + 1 + s.published.length = (s.acquired ++ [id]).length
    rw [List.length_append, List.length_singleton]
    omega

theorem inv_destroySelf (h : Inv s) {side : Side}
    (ht : (s.spawns id).tail side = some .destroying) :
    (s.spawns id).alive = true ∧
      Inv { s.setSpawn id ({ s.spawns id with alive := false, completionError := none }.setTail
          (.publishing (s.spawns id).completionError) side) with
        destroyed := s.destroyed ++ [id] } := by
  obtain ⟨halive, hd, hp, ha, hfit, hd', hp', ha'⟩ := (h.fits id).destroying ht
  refine ⟨halive, ?_⟩
  have hnot : id ∉ s.destroyed := by
    rw [h.destroyed, hd]
    simp
  refine ⟨?_, ?_, ?_, ?_, ?_, h.acquiredOnce, ?_, h.publishedOnce, h.active, h.firstError, h.fault⟩
  · exact forall_update (P := fun _ (y : Spawn) => y.Fits) (fun id' _ => h.fits id') hfit
  · refine forall_update (P := fun id' (y : Spawn) => id' ∈ s.acquired ↔ y.isAcquired = true)
      (fun id' _ => h.acquired id') ?_
    rw [ha', h.acquired, ha]
  · refine forall_update (P := fun id' (y : Spawn) => id' ∈ s.destroyed ++ [id] ↔ y.isDestroyed = true) ?_ ?_
    · intro id' hne
      rw [mem_append_of_ne hne]
      exact h.destroyed id'
    · rw [hd']
      simp
  · refine forall_update (P := fun id' (y : Spawn) => id' ∈ s.published.map Prod.fst ↔ y.isPublished = true)
      (fun id' _ => h.published id') ?_
    rw [hp', h.published, hp]
  · refine forall_update (P := fun id' (y : Spawn) => ∀ error, (id', error) ∈ s.published →
      y.outcome = some error) (fun id' _ => h.outcome id') ?_
    intro error hm
    have hpub := (h.published id).mp (List.mem_map.mpr ⟨_, hm, rfl⟩)
    rw [hp] at hpub
    cases hpub
  · exact nodup_snoc h.destroyedOnce hnot

/-- The section of `complete`, for a spawn that has not yet been published. -/
theorem inv_publish (h : Inv s) (hfit : x.Fits) (ha : x.isAcquired = true)
    (ha₀ : (s.spawns id).isAcquired = true) (hp₀ : (s.spawns id).isPublished = false)
    (hp : x.isPublished = true) (hd : x.isDestroyed = (s.spawns id).isDestroyed)
    (ho : x.outcome = some error) : Inv (s.publish id error x) := by
  have hpos := h.active_pos ha₀ hp₀
  have hnot : id ∉ s.published.map Prod.fst := by
    rw [h.published, hp₀]
    simp
  refine ⟨?_, ?_, ?_, ?_, ?_, h.acquiredOnce, h.destroyedOnce, ?_, ?_, ?_, h.fault⟩
  · exact forall_update (P := fun _ (y : Spawn) => y.Fits) (fun id' _ => h.fits id') hfit
  · refine forall_update (P := fun id' (y : Spawn) => id' ∈ s.acquired ↔ y.isAcquired = true)
      (fun id' _ => h.acquired id') ?_
    rw [ha, h.acquired, ha₀]
  · refine forall_update (P := fun id' (y : Spawn) => id' ∈ s.destroyed ↔ y.isDestroyed = true)
      (fun id' _ => h.destroyed id') ?_
    rw [hd]
    exact h.destroyed id
  · refine forall_update (P := fun id' (y : Spawn) =>
      id' ∈ (s.published ++ [(id, error)]).map Prod.fst ↔ y.isPublished = true) ?_ ?_
    · intro id' hne
      rw [List.map_append, List.map_singleton, mem_append_of_ne hne]
      exact h.published id'
    · rw [hp]
      simp
  · refine forall_update (P := fun id' (y : Spawn) => ∀ e, (id', e) ∈ s.published ++ [(id, error)] →
      y.outcome = some e) ?_ ?_
    · intro id' hne e hm
      rw [mem_append_of_ne (by simp [hne])] at hm
      exact h.outcome id' e hm
    · intro e hm
      rcases List.mem_append.mp hm with hm | hm
      · exact absurd (List.mem_map.mpr ⟨_, hm, rfl⟩) hnot
      · rw [List.mem_singleton] at hm
        cases hm
        exact ho
  · show ((s.published ++ [(id, error)]).map Prod.fst).Nodup
    rw [List.map_append, List.map_singleton]
    exact nodup_snoc h.publishedOnce hnot
  · have hactive := h.active
    show (s.shared.complete error).active + (s.published ++ [(id, error)]).length =
      s.acquired.length
    rw [Shared.complete_active, List.length_append, List.length_singleton]
    omega
  · show (s.shared.complete error).firstError = (s.published ++ [(id, error)]).findSome? Prod.snd
    rw [Shared.complete_firstError, List.findSome?_append, h.firstError, List.findSome?_singleton]

/-! ## Runs -/

theorem Inv.use (h : (s.spawns id).alive = true ∧ Inv s') : Inv (s.use id s') := by
  unfold State.use
  rw [if_pos h.1]
  exact h.2

theorem inv_step (h : Inv s) {l : Label} (hs : step s l = some s') : Inv s' := by
  cases l with
  | tryAcquire id =>
    simp only [step, Option.ite_none_right_eq_some] at hs
    obtain ⟨hidle, hs⟩ := hs
    unfold Shared.tryAcquire at hs
    split_ifs at hs with hclosed
    · cases hs
      exact h.setSpawn (Spawn.moves_refused (h.fits id) hidle)
    · cases hs
      exact inv_acquire h hidle
  | construct id failure =>
    simp only [step, Option.ite_none_right_eq_some] at hs
    obtain ⟨hacq, hs⟩ := hs
    cases failure with
    | none =>
      cases hs
      exact h.setSpawn (Spawn.moves_constructed (h.fits id) hacq)
    | some error =>
      cases hs
      exact h.setSpawn (Spawn.moves_failed (h.fits id) hacq error)
  | fail id =>
    simp only [step] at hs
    split at hs
    · next error hfail =>
      cases hs
      -- a spawn whose construction failed publishes its error itself, since no operation exists
      have hfit := h.fits id
      have hc := hfit.completer_idle (.inr (.inr (.inl ⟨error, hfail⟩)))
      simp only [Spawn.Fits, hfail, hc] at hfit
      refine inv_publish h ?_ rfl ?_ ?_ ?_ ?_ hfit.2.2
      · simp only [Spawn.Fits, hc]
        exact ⟨hfit.1, hfit.2.1⟩
      · simp [Spawn.isAcquired, hfail]
      · simp [Spawn.isPublished, hfail]
      · simp [Spawn.isPublished]
      · simp [Spawn.isDestroyed, hfail, hc]
    · cases hs
  | start id =>
    simp only [step, Option.ite_none_right_eq_some, Option.some.injEq] at hs
    obtain ⟨hc, rfl⟩ := hs
    obtain ⟨halive, hm⟩ := Spawn.moves_start (h.fits id) hc
    exact .use ⟨halive, h.setSpawn hm⟩
  | startReturns id =>
    simp only [step, Option.ite_none_right_eq_some, Option.some.injEq] at hs
    obtain ⟨hst, rfl⟩ := hs
    obtain ⟨halive, hm⟩ := Spawn.moves_startReturns (h.fits id) hst
    exact .use ⟨halive, h.setSpawn hm⟩
  | signal id signal =>
    simp only [step, Option.ite_none_right_eq_some] at hs
    obtain ⟨⟨halive, hst⟩, hs⟩ := hs
    split_ifs at hs with hcomp
    · cases hs
      exact h
    · cases hs
      exact h.setSpawn (Spawn.moves_signal (h.fits id) halive hst (by simpa using hcomp) _)
  | complete id =>
    simp only [step] at hs
    split at hs
    · next error hc =>
      cases hs
      obtain ⟨halive, hm⟩ := Spawn.moves_complete (h.fits id) hc
      exact .use ⟨halive, h.setSpawn hm⟩
    · cases hs
  | destroySelf id side =>
    simp only [step, Option.ite_none_right_eq_some, Option.some.injEq] at hs
    obtain ⟨ht, rfl⟩ := hs
    exact .use (inv_destroySelf h ht)
  | publish id side =>
    simp only [step] at hs
    split at hs
    · next error ht =>
      cases hs
      obtain ⟨hd, hp, ha, ho, hfit, hd', hp', ha'⟩ := (h.fits id).publishing ht
      refine inv_publish h hfit ha' ha hp hp' (by rw [hd', hd]) ?_
      cases side <;> exact ho
    · cases hs
  | close =>
    cases hs
    exact { h with }
  | requestStop =>
    cases hs
    exact { h with }
  | wait =>
    simp only [step, Option.ite_none_right_eq_some, Option.some.injEq] at hs
    obtain ⟨-, rfl⟩ := hs
    exact h

theorem reachable_inv (h : Reachable step Initial s) : Inv s := by
  refine Reachable.preserves ?_ (fun _ _ _ hi hs => inv_step hi hs) h
  rintro _ rfl
  exact inv_initial

end CCForge.AsyncScope
