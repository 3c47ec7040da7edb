import CCForge.Hive.Storage

/-!
# Clearing and releasing

`clear` moves every active block to the reserved list, last block first. The loop
takes the links of the active and the available list apart as it goes, so its
invariant speaks of the blocks already cleared and of those still to come.
-/

namespace CCForge.Hive

namespace Block

variable {α : Type} {k : Block α}

theorem destroyFrom_capacity (fuel index : ℕ) :
    (k.destroyFrom fuel index).capacity = k.capacity := by
  induction fuel generalizing k index with
  | zero => rfl
  | succ n ih =>
    rw [destroyFrom]
    split
    · exact ih _
    · rfl

end Block

open World

variable {α : Type} {w w' : World α} {h : HiveId} {c : ControlId} {S : Shape} {b : BlockId}

/-- The blocks in `l` have been cleared and pushed on the reserved list. -/
structure Cleared (w w' : World α) (c : ControlId) (l : List BlockId) : Prop where
  outside : ∀ x, x ∉ l → SameBlock w w' x
  vacant : ∀ x ∈ l, (w'.block x).Vacant ∧ (w'.block x).capacity = (w.block x).capacity
  flags : ∀ x ∈ l, w'.active x = false ∧ w'.inAvailable x = false
  links : ∀ x ∈ l, (w'.activeLinks.next x = none ∧ w'.activeLinks.prev x = none) ∧
    w'.availableLinks.next x = none ∧ w'.availableLinks.prev x = none
  reserved : ∀ R, Chain w.reservedNext (w.control c).reservedHead R → (∀ x ∈ l, x ∉ R) →
    Chain w'.reservedNext (w'.control c).reservedHead (l.reverse ++ R)
  owner : (w'.control c).owner = (w.control c).owner
  capacity : (w'.control c).capacity = (w.control c).capacity
  control : ∀ k, k ≠ c → w'.control k = w.control k
  blockControl : w'.blockControl = w.blockControl
  heap : w'.heap = w.heap
  container : w'.container = w.container
  nextBlock : w'.nextBlock = w.nextBlock
  nextControl : w'.nextControl = w.nextControl

theorem Cleared.refl : Cleared w w c [] :=
  ⟨fun _ _ => .rfl, by simp, by simp, by simp, fun _ hR _ => hR, rfl, rfl, fun _ _ => rfl, rfl, rfl, rfl,
    rfl, rfl⟩

theorem clearBlock_spec : Cleared w (w.clearBlock c b) c [b] := by
  refine ⟨fun x hx => ?_, ?_, ?_, ?_, fun R hR hx => ?_, ?_, ?_, fun k hk => ?_, rfl, rfl, rfl, rfl,
    rfl⟩
  · have hxb : x ≠ b := by simpa using hx
    exact ⟨Function.update_of_ne hxb _ _, rfl, rfl, Function.update_of_ne hxb _ _,
      Function.update_of_ne hxb _ _, Links.put_same hxb, Links.put_same hxb,
      Function.update_of_ne hxb _ _, rfl, rfl, rfl⟩
  · intro x hx
    obtain rfl : x = b := by simpa using hx
    have hself : (w.clearBlock c x).block x = (w.block x).destroyLiveElements.resetVacantBlock :=
      Function.update_self _ _ _
    rw [hself]
    exact ⟨⟨rfl, rfl, rfl⟩, Block.destroyFrom_capacity _ _⟩
  · intro x hx
    obtain rfl : x = b := by simpa using hx
    exact ⟨Function.update_self _ _ _, Function.update_self _ _ _⟩
  · intro x hx
    obtain rfl : x = b := by simpa using hx
    simp [World.clearBlock, World.reservedPush, modifyControl]
  · have hb : b ∉ R := hx b (by simp)
    simp only [List.reverse_singleton, List.singleton_append]
    refine ⟨by simp [World.clearBlock, World.reservedPush], ?_⟩
    have hnext : (w.clearBlock c b).reservedNext b = (w.control c).reservedHead :=
      Function.update_self _ _ _
    rw [hnext]
    refine hR.congr fun y hy => Function.update_of_ne ?_ _ _
    rintro rfl
    exact hb hy
  · simp [World.clearBlock, World.reservedPush, modifyBlock]
  · simp [World.clearBlock, World.reservedPush, modifyBlock]
  · exact Function.update_of_ne hk _ _

theorem Cleared.trans {u : World α} {l : List BlockId} (hc : Cleared w w' c [b])
    (hc' : Cleared w' u c l) (hb : b ∉ l) : Cleared w u c (b :: l) := by
  have hw' : ∀ x ∈ l, SameBlock w w' x := fun x hx =>
    hc.outside x fun he => hb (by rw [← List.mem_singleton.mp he]; exact hx)
  have hu : SameBlock w' u b := hc'.outside b hb
  refine ⟨fun x hx => ?_, ?_, ?_, ?_, fun R hR hx => ?_, hc'.owner.trans hc.owner,
    hc'.capacity.trans hc.capacity, fun k hk => (hc'.control k hk).trans (hc.control k hk),
    hc'.blockControl.trans hc.blockControl, hc'.heap.trans hc.heap,
    hc'.container.trans hc.container, hc'.nextBlock.trans hc.nextBlock,
    hc'.nextControl.trans hc.nextControl⟩
  · rw [List.mem_cons, not_or] at hx
    exact (hc.outside x (by simpa using hx.1)).trans (hc'.outside x hx.2)
  · intro x hx
    rcases List.mem_cons.mp hx with rfl | hx
    · rw [hu.block]
      exact hc.vacant x (by simp)
    · refine ⟨(hc'.vacant x hx).1, ?_⟩
      rw [(hc'.vacant x hx).2, (hw' x hx).block]
  · intro x hx
    rcases List.mem_cons.mp hx with rfl | hx
    · rw [hu.active, hu.inAvailable]
      exact hc.flags x (by simp)
    · exact hc'.flags x hx
  · intro x hx
    rcases List.mem_cons.mp hx with rfl | hx
    · rw [hu.activeLinks.next, hu.activeLinks.prev, hu.availableLinks.next, hu.availableLinks.prev]
      exact hc.links x (by simp)
    · exact hc'.links x hx
  · have h₁ := hc.reserved R hR fun y hy => hx y (by
      rw [List.mem_singleton.mp hy]
      exact List.mem_cons_self)
    have h₂ := hc'.reserved _ h₁ fun y hy => by
      simp only [List.reverse_singleton, List.singleton_append, List.mem_cons, not_or]
      exact ⟨fun he => hb (he ▸ hy), hx y (List.mem_cons_of_mem b hy)⟩
    simpa using h₂

theorem clearFrom_spec {fuel : ℕ} {start : Option BlockId} {l : List BlockId}
    (hl : Chain w.activeLinks.next start l) (hn : l.Nodup) (hf : l.length ≤ fuel) :
    Cleared w (clearFrom c fuel start w) c l := by
  induction l generalizing w start fuel with
  | nil =>
    rw [show start = none from hl]
    cases fuel <;> exact .refl
  | cons b l ih =>
    obtain ⟨rfl, hl⟩ := hl
    obtain ⟨hb, hn⟩ := List.nodup_cons.mp hn
    cases fuel with
    | zero => simp at hf
    | succ n =>
      refine clearBlock_spec.trans (ih ?_ hn (by simpa using hf)) hb
      refine hl.congr fun x hx => ?_
      exact (Links.put_same fun he : x = b => hb (he ▸ hx)).next

/-- No block is in the active or the available list any more. -/
theorem Cleared.clean (hh : HiveOk w h c S) {u : World α} (hc : Cleared w u c S.active) {x : BlockId}
    (hx : x ∈ S.active ∨ x ∈ S.reserved) : u.active x = false ∧ u.inAvailable x = false ∧
      (u.activeLinks.next x = none ∧ u.activeLinks.prev x = none) ∧
      u.availableLinks.next x = none ∧ u.availableLinks.prev x = none := by
  have hL := hh.represents.lists
  by_cases hact : x ∈ S.active
  · exact ⟨(hc.flags x hact).1, (hc.flags x hact).2, (hc.links x hact).1, (hc.links x hact).2⟩
  · have hs := hc.outside x hact
    have hxS : x ∈ S.blocks := Shape.mem_blocks.mpr (.inr (.inl (hx.resolve_left hact)))
    have hnv : x ∉ S.available := fun hm => hact (hL.available.sub x hm)
    have hfa : w.active x = false := by simpa [hact] using hL.active.flag x hxS
    have hfv : w.inAvailable x = false := by simpa [hnv] using hL.available.flag x hxS
    rw [hs.active, hs.inAvailable, hs.activeLinks.next, hs.activeLinks.prev, hs.availableLinks.next,
      hs.availableLinks.prev]
    exact ⟨hfa, hfv, hL.active.clean x hxS hact, hL.available.clean x hxS hnv⟩

/-- After `clear` all blocks are reserved. -/
theorem clear_represents (hh : HiveOk w h c S) {u : World α} (hc : Cleared w u c S.active) :
    HiveOk (u.modifyControl c fun k =>
      { k with activeHead := none, activeTail := none, availableHead := none, size := 0 }) h c
      ⟨[], S.active.reverse ++ S.reserved, [], []⟩ := by
  have hr := hh.represents
  have hnodup := hr.lists.nodup
  simp only [Shape.blocks, hh.settled, List.append_nil] at hnodup
  have hmem : ∀ x, x ∈ (⟨[], S.active.reverse ++ S.reserved, [], []⟩ : Shape).blocks ↔
      x ∈ S.active ∨ x ∈ S.reserved := by
    intro x
    simp [Shape.mem_blocks]
  have hold : ∀ x, x ∈ (⟨[], S.active.reverse ++ S.reserved, [], []⟩ : Shape).blocks → x ∈ S.blocks :=
    fun x hx => Shape.mem_blocks.mpr (by rcases (hmem x).mp hx with hx | hx <;> simp [hx])
  have hout : ∀ x ∈ S.reserved, x ∉ S.active := fun x hx hm => hr.lists.notMem_reserved hm hx
  have hcaps : ∀ x ∈ S.blocks, (u.block x).capacity = (w.block x).capacity := by
    intro x _
    by_cases hx : x ∈ S.active
    · exact (hc.vacant x hx).2
    · rw [(hc.outside x hx).block]
  have hclean : ∀ x, x ∈ S.active ∨ x ∈ S.reserved → _ := fun x hx => hc.clean hh hx
  refine ⟨⟨⟨⟨by simp, by simp, trivial, .nil, by simp, fun x hx => ?_, fun x hx _ => ?_⟩,
    ⟨by simp, trivial, List.nodup_nil, by simp, fun x hx => ?_, fun x hx _ => ?_⟩, ⟨?_, ?_⟩, ?_, ?_⟩,
    ⟨by simp, by simp, ?_, ?_⟩, by simp [totalSize], ?_⟩, rfl, ?_, ?_, ?_⟩
  · have hfalse := (hclean x ((hmem x).mp hx)).1
    simp [modifyControl, hfalse]
  · exact (hclean x ((hmem x).mp hx)).2.2.1
  · have hfalse := (hclean x ((hmem x).mp hx)).2.1
    simp [modifyControl, hfalse]
  · exact (hclean x ((hmem x).mp hx)).2.2.2
  · simp only [modifyControl_self]
    exact hc.reserved _ hr.lists.reserved.chain fun x hx => hr.lists.notMem_reserved hx
  · intro x hx hnx
    exfalso
    rcases (hmem x).mp hx with hx | hx <;> simp [hx] at hnx
  · have hperm : (⟨[], S.active.reverse ++ S.reserved, [], []⟩ : Shape).blocks.Perm
        (S.active ++ S.reserved) := by
      simp only [Shape.blocks, List.nil_append, List.append_nil]
      exact (List.reverse_perm _).append_right _
    exact hperm.nodup_iff.mpr hnodup
  · intro x hx
    have hown := hr.lists.owned x (hold x hx)
    refine hown.of_columns ?_ hc.nextBlock fun a _ => congrFun hc.heap a
    rw [show (u.modifyControl c _).blockControl = u.blockControl from rfl, hc.blockControl]
    exact hown.control
  · intro x hx
    show (u.block x).Vacant
    rcases List.mem_append.mp hx with hx | hx
    · exact (hc.vacant x (List.mem_reverse.mp hx)).1
    · rw [(hc.outside x (hout x hx)).block]
      exact hr.filled.reserved x hx
  · intro x hx
    show 0 < (u.block x).capacity ∧ (u.block x).capacity ≤ 65535
    rw [hcaps x (hold x hx)]
    exact hr.filled.capacity x (hold x hx)
  · simp only [modifyControl_self]
    rw [hc.capacity, hr.capacity]
    have hperm : S.blocks.Perm (⟨[], S.active.reverse ++ S.reserved, [], []⟩ : Shape).blocks := by
      simp only [Shape.blocks, hh.settled, List.nil_append, List.append_nil]
      exact ((List.reverse_perm _).append_right _).symm
    rw [totalCapacity_perm hperm]
    exact (totalCapacity_changed fun x hx => hcaps x (hold x hx)).symm
  · simp only [modifyControl_self]
    exact hc.owner.trans hh.owner
  · exact hc.nextControl.symm ▸ hh.known
  · rw [show (u.modifyControl c _).heap = u.heap from rfl, hc.heap]
    exact hh.heap

theorem Cleared.keeps (hh : HiveOk w h c S) {u : World α} (hc : Cleared w u c S.active) :
    Keeps w u h c := by
  refine ⟨⟨fun x _ hx => hc.outside x fun hm => ?_, fun k _ hk => hc.control k hk,
    fun k _ _ => by rw [hc.heap], hc.nextBlock.ge, hc.nextControl.ge⟩, hc.owner, by rw [hc.heap],
    fun x => by rw [hc.container], fun x _ => by rw [hc.container]⟩
  exact hh.represents.lists.notMem hx (Shape.mem_blocks.mpr (.inl hm))

theorem clearWithoutEndInvalidation_spec (hi : Inv w) :
    OnlyTouches w (w.clearWithoutEndInvalidation h) h ∧
      (w.clearWithoutEndInvalidation h).elements h = [] ∧
      (w.clearWithoutEndInvalidation h).container = w.container := by
  unfold World.clearWithoutEndInvalidation
  split
  · next hc => exact ⟨Silent.onlyTouches .refl hi h, elements_of_none hc, rfl⟩
  · next c hc =>
    obtain ⟨S, hS⟩ := hi h c hc
    have hcl : Cleared w (clearFrom c w.nextBlock (w.control c).activeHead w) c S.active :=
      clearFrom_spec hS.represents.lists.active_chain hS.represents.lists.active_nodup
        hS.represents.lists.active_length_le
    have hk := (hcl.keeps hS).trans (keeps_modifyControl (h := h) (c := c) (f := fun k =>
      { k with activeHead := none, activeTail := none, availableHead := none, size := 0 }) rfl)
    obtain ⟨ht, he⟩ := hi.of_keeps hc hk (clear_represents hS hcl)
    exact ⟨ht, he.trans (by simp [elementsOf]), hcl.container⟩

/-- A change of the epoch of one hive. -/
theorem modifyContainer_unchanged (hi : Inv w) {f : Container → Container}
    (hf : (f (w.container h)).control = (w.container h).control) :
    Unchanged w (w.modifyContainer h f) h := by
  have hcontrol : ∀ x, ((w.modifyContainer h f).container x).control = (w.container x).control := by
    intro x
    by_cases hx : x = h
    · subst hx
      simp only [modifyContainer, Function.update_self]
      exact hf
    · simp [modifyContainer, hx]
  have helem : ∀ x, (w.modifyContainer h f).elements x = w.elements x := by
    intro x
    have hblocks : (w.modifyContainer h f).activeBlocks x = w.activeBlocks x := by
      unfold World.activeBlocks
      rw [hcontrol x]
      rfl
    rw [World.elements, hblocks]
    rfl
  refine ⟨⟨fun x c hc => ?_, fun x hx => by simp [modifyContainer, hx], fun x _ => helem x⟩, helem h⟩
  rw [hcontrol x] at hc
  obtain ⟨S, hS⟩ := hi x c hc
  exact ⟨S, hS.of_local (local_modifyContainer h f) (Set.notMem_empty c)⟩

theorem touchEnd_unchanged (hi : Inv w) : Unchanged w (w.touchEnd h) h :=
  modifyContainer_unchanged hi rfl

theorem clear_spec (hi : Inv w) : OnlyTouches w (w.clear h) h ∧ (w.clear h).elements h = [] := by
  obtain ⟨ht, he, -⟩ := clearWithoutEndInvalidation_spec (h := h) hi
  have hu : Unchanged (w.clearWithoutEndInvalidation h) (w.clear h) h := touchEnd_unchanged ht.inv
  exact ⟨ht.trans hu.touches, hu.elements.trans he⟩

/-! ## Releasing -/

theorem deallocateBlock_heap {a : Allocation}
    (ha : a ≠ .block b ∧ a ≠ .slots b ∧ a ≠ .skip b) : (w.deallocateBlock b).heap a = w.heap a := by
  simp [deallocateBlock, release, ha.1, ha.2.1, ha.2.2]

theorem local_deallocateBlock {C : Set ControlId} (hb : w.blockControl b ∈ C) :
    Local C w (w.deallocateBlock b) := by
  refine ⟨fun x _ hx => ?_, fun _ _ _ => rfl, fun k _ _ => deallocateBlock_heap (by simp), le_refl _,
    le_refl _⟩
  have hxb : x ≠ b := fun he => hx (he ▸ hb)
  exact ⟨rfl, rfl, rfl, rfl, rfl, .rfl, .rfl, rfl, deallocateBlock_heap (by simp [hxb]),
    deallocateBlock_heap (by simp [hxb]), deallocateBlock_heap (by simp [hxb])⟩

/-- Both loops of `release_storage` change nothing but the blocks they visit. -/
structure Released (w w' : World α) (C : Set ControlId) : Prop where
  loc : Local C w w'
  control : w'.control = w.control
  container : w'.container = w.container
  reservedNext : w'.reservedNext = w.reservedNext
  blockControl : w'.blockControl = w.blockControl
  nextBlock : w'.nextBlock = w.nextBlock

theorem releaseActive_spec {fuel : ℕ} {start : Option BlockId} {l : List BlockId}
    (hl : Chain w.activeLinks.next start l) (hc : ∀ x ∈ l, w.blockControl x = c) :
    Released w (releaseActive fuel start w) {c} := by
  induction l generalizing w start fuel with
  | nil =>
    rw [show start = none from hl]
    cases fuel <;> exact ⟨.refl, rfl, rfl, rfl, rfl, rfl⟩
  | cons b l ih =>
    obtain ⟨rfl, hl⟩ := hl
    cases fuel with
    | zero => exact ⟨.refl, rfl, rfl, rfl, rfl, rfl⟩
    | succ n =>
      have hb : w.blockControl b ∈ ({c} : Set ControlId) := hc b List.mem_cons_self
      have hrest : Released _ (releaseActive n _
          ((w.modifyBlock b Block.destroyLiveElements).deallocateBlock b)) {c} :=
        ih hl fun x hx => hc x (List.mem_cons_of_mem b hx)
      obtain ⟨h₁, h₂, h₃, h₄, h₅, h₆⟩ := hrest
      have hloc : Local {c} w ((w.modifyBlock b Block.destroyLiveElements).deallocateBlock b) :=
        (local_modifyBlock hb _).trans (local_deallocateBlock hb)
      exact ⟨hloc.trans h₁, h₂, h₃, h₄, h₅, h₆⟩

theorem releaseReserved_spec {fuel : ℕ} {start : Option BlockId} {l : List BlockId}
    (hl : Chain w.reservedNext start l) (hc : ∀ x ∈ l, w.blockControl x = c) :
    Released w (releaseReserved fuel start w) {c} := by
  induction l generalizing w start fuel with
  | nil =>
    rw [show start = none from hl]
    cases fuel <;> exact ⟨.refl, rfl, rfl, rfl, rfl, rfl⟩
  | cons b l ih =>
    obtain ⟨rfl, hl⟩ := hl
    cases fuel with
    | zero => exact ⟨.refl, rfl, rfl, rfl, rfl, rfl⟩
    | succ n =>
      have hb : w.blockControl b ∈ ({c} : Set ControlId) := hc b List.mem_cons_self
      have hrest : Released _ (releaseReserved n _ (w.deallocateBlock b)) {c} :=
        ih hl fun x hx => hc x (List.mem_cons_of_mem b hx)
      obtain ⟨h₁, h₂, h₃, h₄, h₅, h₆⟩ := hrest
      have hloc : Local {c} w (w.deallocateBlock b) := local_deallocateBlock hb
      exact ⟨hloc.trans h₁, h₂, h₃, h₄, h₅, h₆⟩

/-- The destructor of a hive leaves all other hives alone. -/
theorem releaseStorage_spec (hi : Inv w) :
    OnlyTouches w (w.releaseStorage h) h ∧ ((w.releaseStorage h).container h).control = none := by
  unfold World.releaseStorage
  split
  · next hc => exact ⟨Silent.onlyTouches .refl hi h, hc⟩
  · next c hc =>
    obtain ⟨S, hS⟩ := hi h c hc
    have hL := hS.represents.lists
    have h₁ : Released w (releaseActive w.nextBlock (w.control c).activeHead w) {c} :=
      releaseActive_spec hL.active_chain fun x hx => hL.mem_owned (Shape.mem_blocks.mpr (.inl hx))
    generalize releaseActive w.nextBlock (w.control c).activeHead w = u₁ at h₁ ⊢
    have hchain : Chain u₁.reservedNext (u₁.control c).reservedHead S.reserved := by
      rw [h₁.reservedNext, h₁.control]
      exact hL.reserved.chain
    have h₂ : Released u₁ (releaseReserved u₁.nextBlock (u₁.control c).reservedHead u₁) {c} :=
      releaseReserved_spec hchain fun x hx => by
        rw [h₁.blockControl]
        exact hL.mem_owned (Shape.mem_blocks.mpr (.inr (.inl hx)))
    simp only
    generalize releaseReserved u₁.nextBlock (u₁.control c).reservedHead u₁ = u₂ at h₂ ⊢
    have h₃ : Local {c} u₂ (u₂.deallocateControl c) := by
      refine ⟨fun _ _ _ => ⟨rfl, rfl, rfl, rfl, rfl, .rfl, .rfl, rfl, ?_, ?_, ?_⟩, fun _ _ _ => rfl,
        fun k _ hk => ?_, le_refl _, le_refl _⟩
      · simp [deallocateControl, release]
      · simp [deallocateControl, release]
      · simp [deallocateControl, release]
      · have hkc : k ≠ c := hk
        simp [deallocateControl, release, hkc]
    have hcont : u₂.container = w.container := h₂.container.trans h₁.container
    have hnone : (((u₂.deallocateControl c).modifyContainer h ({ · with control := none })).container
        h).control = none := by simp [modifyContainer]
    refine ⟨hi.onlyTouches (((h₁.loc.trans h₂.loc).trans h₃).trans (local_modifyContainer h _))
      (fun x hx => ?_) (fun x hx => ?_) (fun k hk => ?_), hnone⟩
    · rw [← hcont]
      simp [modifyContainer, hx, deallocateControl, release]
    · obtain ⟨T, hT⟩ := hi x c hx
      exact hS.unique hT
    · rw [hnone] at hk
      simp at hk

end CCForge.Hive
