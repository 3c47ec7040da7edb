import CCForge.Hive.Representation
import CCForge.Hive.Operations

/-!
# Allocation

New objects get fresh identities. A call that throws releases what it had allocated,
and changes nothing that existed before it.
-/

namespace CCForge.Hive

open World Effect

variable {α : Type} {env : Env α} {w w' : World α} {h : HiveId} {c : ControlId} {b : BlockId}
  {S : Shape}

/-- The store after one more call that could throw. -/
def tick (w : World α) : World α := { w with calls := w.calls + 1 }

theorem silent_tick : Silent w (tick w) :=
  ⟨⟨fun _ _ _ => ⟨rfl, rfl, rfl, rfl, rfl, .rfl, .rfl, rfl, rfl, rfl, rfl⟩, fun _ _ _ => rfl,
    fun _ _ _ => rfl, le_refl _, le_refl _⟩, rfl⟩

@[simp] theorem ends_mayThrow {e : Error} {Q : Unit → World α → Prop} {E : Error → World α → Prop} :
    Ends (mayThrow env e) w Q E ↔ if env.throws w.calls then E e (tick w) else Q () (tick w) := by
  simp only [mayThrow, ends_bind, ends_get, ends_modify]
  split
  · exact Iff.rfl
  · exact Iff.rfl

def setHeap (w : World α) (a : Allocation) (x : Bool) : World α :=
  { w with heap := Function.update w.heap a x }

@[simp] theorem ends_allocate {a : Allocation} {Q : Unit → World α → Prop}
    {E : Error → World α → Prop} : Ends (allocate env a) w Q E ↔
      if env.throws w.calls then E .badAlloc (tick w) else Q () (setHeap (tick w) a true) := by
  simp only [allocate, ends_bind, ends_mayThrow, ends_modify]
  rfl

/-- An allocation that belongs to no existing object. -/
def Fresh (w : World α) : Allocation → Prop
  | .control c => w.nextControl ≤ c
  | .block b => w.nextBlock ≤ b
  | .slots b => w.nextBlock ≤ b
  | .skip b => w.nextBlock ≤ b

theorem World.Silent.setHeap {a : Allocation} {x : Bool} (hs : Silent w w') (ha : Fresh w a) :
    Silent w (setHeap w' a x) := by
  have hheap : ∀ a', ¬Fresh w a' → (Hive.setHeap w' a x).heap a' = w'.heap a' := fun a' hn =>
    Function.update_of_ne (fun he : a' = a => hn (he ▸ ha)) _ _
  refine ⟨⟨fun b hb hn => ?_, hs.loc.control, fun k hk hn => ?_, hs.loc.nextBlock,
    hs.loc.nextControl⟩, hs.container⟩
  · exact (hs.loc.block b hb hn).trans ⟨rfl, rfl, rfl, rfl, rfl, .rfl, .rfl, rfl,
      hheap _ (Nat.not_le.mpr hb), hheap _ (Nat.not_le.mpr hb), hheap _ (Nat.not_le.mpr hb)⟩
  · exact (hheap (.control k) (Nat.not_le.mpr hk)).trans (hs.loc.heap k hk hn)

theorem release_eq (w : World α) (a : Allocation) : w.release a = setHeap w a false := rfl

/-- A store in which only the allocation of the next block has begun. -/
structure Stage (w u : World α) (heap : Allocation → Bool) : Prop where
  silent : Silent w u
  nextBlock : u.nextBlock = w.nextBlock
  control : u.control = w.control
  heap : u.heap = heap

variable {u : World α} {heap : Allocation → Bool}

theorem Stage.tick (hs : Stage w u heap) : Stage w (tick u) heap :=
  ⟨hs.silent.trans silent_tick, hs.nextBlock, hs.control, hs.heap⟩

theorem Stage.set {a : Allocation} (hs : Stage w u heap)
    (ha : a = .block w.nextBlock ∨ a = .slots w.nextBlock ∨ a = .skip w.nextBlock) (x : Bool) :
    Stage w (setHeap u a x) (Function.update heap a x) := by
  refine ⟨hs.silent.setHeap ?_, hs.nextBlock, hs.control, ?_⟩
  · rcases ha with rfl | rfl | rfl <;> exact le_refl w.nextBlock
  · rw [setHeap, hs.heap]

/-- What a new block looks like. -/
structure NewBlock (w w' : World α) (c : ControlId) (b : BlockId) (capacity : ℕ) : Prop where
  silent : Silent w w'
  fresh : w.nextBlock ≤ b
  owned : Owned w' c b
  clean : Clean w' b
  vacant : (w'.block b).Vacant
  capacity : (w'.block b).capacity = capacity
  control : w'.control = w.control
  heap : ∀ k, w'.heap (.control k) = w.heap (.control k)

theorem allocateBlock_spec (capacity : ℕ) :
    Ends (allocateBlock env c capacity) w (fun b w' => NewBlock w w' c b capacity)
      (fun _ w' => Silent w w') := by
  simp only [allocateBlock, ends_bind, ends_get, ends_allocate, ends_tryCatch, ends_mayThrow,
    ends_modify, ends_throw, ends_pure, release_eq]
  have h₀ : Stage w (tick w) w.heap := Stage.tick ⟨.refl, rfl, rfl, rfl⟩
  split
  · exact h₀.silent
  · have h₁ := h₀.set (.inl rfl) true
    generalize setHeap (tick w) (.block w.nextBlock) true = u₁ at h₁ ⊢
    split
    · exact (h₁.tick.set (.inl rfl) false).silent
    · have h₂ := h₁.tick.set (.inr (.inl rfl)) true
      generalize setHeap (tick u₁) (.slots w.nextBlock) true = u₂ at h₂ ⊢
      split
      · exact ((h₂.tick.set (.inr (.inl rfl)) false).set (.inl rfl) false).silent
      · have h₃ := h₂.tick.set (.inr (.inr rfl)) true
        generalize setHeap (tick u₂) (.skip w.nextBlock) true = u₃ at h₃ ⊢
        split
        · exact (((h₃.tick.set (.inr (.inr rfl)) false).set (.inr (.inl rfl)) false).set (.inl rfl)
            false).silent
        · -- all three allocations are there and the block is constructed
          have h₄ := h₃.tick
          generalize tick u₃ = u₄ at h₄ ⊢
          refine ⟨h₄.silent.trans ⟨⟨fun x hx _ => ?_, fun _ _ _ => rfl, fun _ _ _ => rfl,
            ?_, le_refl _⟩, rfl⟩, le_refl _, ?_, ?_, ?_, ?_, h₄.control, fun k => ?_⟩
          · have hne : x ≠ w.nextBlock := by
              rw [h₄.nextBlock] at hx
              exact Nat.ne_of_lt hx
            exact ⟨Function.update_of_ne hne _ _, Function.update_of_ne hne _ _,
              Function.update_of_ne hne _ _, Function.update_of_ne hne _ _,
              Function.update_of_ne hne _ _, Links.put_same hne, Links.put_same hne,
              Function.update_of_ne hne _ _, rfl, rfl, rfl⟩
          · rw [h₄.nextBlock]
            exact Nat.le_succ _
          · refine ⟨Function.update_self _ _ _, Nat.lt_succ_self _, ?_, ?_, ?_⟩ <;>
              simp [h₄.heap]
          · exact ⟨Function.update_self _ _ _, Function.update_self _ _ _, by simp, by simp,
              Function.update_self _ _ _⟩
          · exact ⟨by simp, by simp, by simp⟩
          · simp
          · simp [h₄.heap]

/-- An allocation fails for its own reasons. -/
theorem allocateBlock_error (capacity : ℕ) :
    Ends (allocateBlock env c capacity) w (fun _ _ => True) (fun e _ => e ≠ .element) := by
  simp only [allocateBlock, ends_bind, ends_get, ends_allocate, ends_tryCatch, ends_mayThrow,
    ends_modify, ends_throw, ends_pure]
  split_ifs <;> simp

theorem controlOrNew_error :
    Ends (controlOrNew env h) w (fun _ _ => True) (fun e _ => e ≠ .element) := by
  simp only [controlOrNew, ends_bind, ends_get]
  split
  · trivial
  · simp only [allocateControl, ends_bind, ends_get, ends_allocate, ends_tryCatch, ends_mayThrow,
      ends_modify, ends_throw, ends_pure]
    split_ifs <;> simp

/-- The control that an operation on `h` works on. -/
structure HasControl (w w' : World α) (h : HiveId) (c : ControlId) (S : Shape) : Prop where
  silent : Silent w w'
  ok : HiveOk w' h c S
  elements : w'.elementsOf S.active = w.elements h
  mine : ∀ x, (w.container x).control = some c → x = h
  container : ∀ k, (w.container h).control = some k → k = c
  fresh : (w.container h).control.isNone → w.nextControl ≤ c
  size : (w'.control c).size = w.size h
  capacity : (w'.control c).capacity = w.capacity h

/-- The shape of a control without blocks. -/
def Shape.empty : Shape := ⟨[], [], [], []⟩

/-- A new control has no blocks. -/
theorem represents_new (hc : w.control c = { owner := h }) : Represents w c Shape.empty := by
  have hmem : ∀ x, x ∉ Shape.empty.blocks := fun x hx => by simp [Shape.blocks, Shape.empty] at hx
  refine ⟨⟨⟨?_, ?_, trivial, .nil, ?_, fun b hb => absurd hb (hmem b), fun b hb => absurd hb (hmem b)⟩,
    ⟨?_, trivial, List.nodup_nil, ?_, fun b hb => absurd hb (hmem b), fun b hb => absurd hb (hmem b)⟩,
    ⟨?_, fun b hb => absurd hb (hmem b)⟩, List.nodup_nil, fun b hb => absurd hb (hmem b)⟩,
    ⟨?_, ?_, ?_, fun b hb => absurd hb (hmem b)⟩, ?_, ?_⟩
  · rw [hc]
    rfl
  · rw [hc]
    rfl
  · intro b hb
    simp [Shape.empty] at hb
  · rw [hc]
    rfl
  · intro b hb
    simp [Shape.empty] at hb
  · rw [hc]
    rfl
  · intro b hb
    simp [Shape.empty] at hb
  · intro b hb
    simp [Shape.empty] at hb
  · intro b hb
    simp [Shape.empty] at hb
  · rw [hc]
    rfl
  · rw [hc]
    rfl

theorem controlOrNew_spec (hi : Inv w) :
    Ends (controlOrNew env h) w (fun c w' => ∃ S, HasControl w w' h c S)
      (fun _ w' => Silent w w') := by
  simp only [controlOrNew, ends_bind, ends_get]
  cases hc : (w.container h).control with
  | some c =>
    obtain ⟨S, hS⟩ := hi h c hc
    simp only [ends_pure]
    refine ⟨S, .refl, hS, (hS.elements hc).symm, fun x hx => ?_, fun k hk => ?_, fun hn => ?_, ?_, ?_⟩
    · obtain ⟨T, hT⟩ := hi x c hx
      exact hS.unique hT
    · rw [hc] at hk
      exact (Option.some.inj hk).symm
    · simp [hc] at hn
    · simp [World.size, hc]
    · simp [World.capacity, hc]
  | none =>
    simp only [allocateControl, ends_bind, ends_get, ends_allocate, ends_tryCatch, ends_mayThrow,
      ends_modify, ends_throw, ends_pure, release_eq]
    have h₀ : Silent w (tick w) := silent_tick
    have hn₀ : (tick w).nextControl = w.nextControl := rfl
    generalize tick w = u₀ at h₀ hn₀ ⊢
    split
    · exact h₀
    · have h₁ : Silent w (setHeap u₀ (.control w.nextControl) true) := h₀.setHeap (le_refl w.nextControl)
      have hheap : (setHeap u₀ (.control w.nextControl) true).heap (.control w.nextControl) = true :=
        Function.update_self _ _ _
      have hn₁ : (setHeap u₀ (.control w.nextControl) true).nextControl = w.nextControl := hn₀
      generalize setHeap u₀ (.control w.nextControl) true = u₁ at h₁ hheap hn₁ ⊢
      have h₂ : Silent w (tick u₁) := h₁.trans silent_tick
      have hn₂ : (tick u₁).nextControl = w.nextControl := hn₁
      have hheap₂ : (tick u₁).heap (.control w.nextControl) = true := hheap
      generalize tick u₁ = u₂ at h₂ hn₂ hheap₂ ⊢
      split
      · exact h₂.setHeap (le_refl w.nextControl)
      · have hnew : ∀ x, (w.container x).control ≠ some w.nextControl := fun x hx => by
          obtain ⟨T, hT⟩ := hi x _ hx
          exact Nat.lt_irrefl _ hT.known
        refine ⟨Shape.empty, h₂.trans ⟨⟨fun _ _ _ => ⟨rfl, rfl, rfl, rfl, rfl, .rfl, .rfl, rfl, rfl,
          rfl, rfl⟩, fun k hk _ => ?_, fun _ _ _ => rfl, le_refl _, ?_⟩, rfl⟩,
          ⟨represents_new (h := h) (by simp), rfl, by simp, Nat.lt_succ_self _, hheap₂⟩, ?_,
          fun x hx => absurd hx (hnew x), fun k hk => absurd (hc.symm.trans hk) (by simp), fun _ => le_refl _,
          ?_, ?_⟩
        · rw [hn₂] at hk
          exact Function.update_of_ne (Nat.ne_of_lt hk) _ _
        · rw [hn₂]
          exact Nat.le_succ _
        · rw [elements_of_none hc]
          rfl
        · simp [World.size, hc]
        · simp [World.capacity, hc]

/-- A new block joins its control, on no list yet. -/
theorem World.Represents.adopt (hr : Represents w c S) (hf : S.floating = []) (hb : b ∉ S.blocks)
    (ho : Owned w c b) (hc : Clean w b)
    (hcap : 0 < (w.block b).capacity ∧ (w.block b).capacity ≤ 65535) :
    Represents (w.modifyControl c fun k => { k with capacity := k.capacity + (w.block b).capacity }) c
      { S with floating := [b] } := by
  have hmem : ∀ x, x ∈ ({ S with floating := [b] } : Shape).blocks → x = b ∨ x ∈ S.blocks := by
    intro x
    simp only [Shape.mem_blocks, hf, List.mem_singleton, List.not_mem_nil]
    tauto
  refine ⟨(hr.lists.adopt hf hb ho hc).of_same ⟨rfl, rfl, rfl, rfl, rfl, rfl, rfl, rfl, rfl, by simp,
    by simp, by simp, by simp, by simp⟩,
    ⟨hr.filled.active, hr.filled.available, hr.filled.reserved, fun x hx => ?_⟩, ?_, ?_⟩
  · rcases hmem x hx with rfl | hx
    · exact hcap
    · exact hr.filled.capacity x hx
  · simp only [modifyControl_self]
    exact hr.size
  · have hblocks : ({ S with floating := [b] } : Shape).blocks = S.blocks ++ [b] := by
      simp [Shape.blocks, hf]
    simp only [modifyControl_self]
    rw [hblocks, totalCapacity_append, hr.capacity]
    simp [totalCapacity, modifyControl]

theorem HasControl.dropNewControl {u v : World α} (hc : HasControl w u h c S) (hs : Silent w v) :
    Silent w (dropNewControl (w.container h).control.isNone c v) := by
  unfold Hive.dropNewControl
  split
  · next hn => exact hs.setHeap (hc.fresh hn)
  · exact hs

theorem World.Silent.deallocateBlock {u : World α} (hs : Silent w u) (hb : w.nextBlock ≤ b) :
    Silent w (u.deallocateBlock b) :=
  ((hs.setHeap (a := .skip b) hb).setHeap (a := .slots b) hb).setHeap (a := .block b) hb

theorem attachNewControl_control (u : World α) (hc : ∀ k, (w.container h).control = some k → k = c)
    (hu : u.container = w.container) :
    ((attachNewControl (w.container h).control.isNone h c u).container h).control = some c := by
  unfold attachNewControl
  split
  · simp [modifyContainer]
  · next hn =>
    rw [hu]
    cases hk : (w.container h).control with
    | none => simp [hk] at hn
    | some k => rw [hc k hk]

theorem attachNewControl_eq (n : Bool) (u : World α) :
    ∃ f, attachNewControl n h c u = u.modifyContainer h f := by
  unfold attachNewControl
  split
  · exact ⟨_, rfl⟩
  · exact ⟨id, by simp [modifyContainer]⟩

/-- An operation that began on a control with all of its hive's elements. -/
theorem HasControl.onlyTouches {u v : World α} {S' : Shape} (hi : Inv w) (hc : HasControl w u h c S)
    (hl : Local {c} u v) (hcont : ∀ x, x ≠ h → v.container x = w.container x)
    (hh : HiveOk v h c S') (hv : (v.container h).control = some c) :
    OnlyTouches w v h ∧ v.elements h = v.elementsOf S'.active := by
  refine ⟨hi.onlyTouches ((hc.silent.loc.mono (Set.empty_subset _)).trans hl) hcont hc.mine
    fun k hk => ?_, hh.elements hv⟩
  rw [hv] at hk
  cases hk
  exact ⟨S', hh⟩

theorem World.OnlyTouches.of_silent {u : World α} (ht : OnlyTouches w' u h) (hi : Inv w)
    (hs : Silent w w') : OnlyTouches w u h :=
  ⟨ht.inv, fun x hx => by rw [ht.container x hx, hs.container],
    fun x hx => by rw [ht.elements x hx, hs.elements hi]⟩

end CCForge.Hive
