import Mathlib.Algebra.BigOperators.Group.Finset.Basic
import Mathlib.Algebra.Order.BigOperators.Group.Finset
import CCForge.Hive.Moves
import CCForge.Hive.Undo

/-!
# The blocks that a control owns

A block belongs to the control that it points at as long as its memory is allocated. The
capacity of a control adds up all its blocks, so none of them is missing on its lists, and
each one is within the limits of the hive.
-/

namespace CCForge.Hive

open World Effect

variable {α : Type}

/-- The allocated blocks that belong to the control `c`. -/
def World.owned (w : World α) (c : ControlId) : Finset BlockId :=
  (Finset.range w.nextBlock).filter fun b => w.blockControl b = c ∧ w.heap (.block b) = true

def World.ownedCapacity (w : World α) (c : ControlId) : ℕ :=
  ∑ b ∈ w.owned c, (w.block b).capacity

/-- The control accounts for all its blocks, and they are within the limits. -/
structure Counted (w : World α) (c : ControlId) (limits : Limits) : Prop where
  blocks : ∀ b ∈ w.owned c, 0 < (w.block b).capacity ∧ within limits (w.block b).capacity
  capacity : (w.control c).capacity = w.ownedCapacity c

/-- Every block is accounted for by the hive that it belongs to. -/
structure Tight (w : World α) : Prop where
  counted : ∀ h c, (w.container h).control = some c → Counted w c (w.container h).limits
  known : ∀ b < w.nextBlock, w.heap (.block b) = true → w.blockControl b < w.nextControl
  noneFresh : NoneFresh w

variable {env : Env α} {w w' u v : World α} {h other : HiveId} {c d : ControlId} {S : Shape}
  {b x : BlockId} {limits : Limits} {capacity : ℕ}

theorem mem_owned :
    b ∈ w.owned c ↔ b < w.nextBlock ∧ w.blockControl b = c ∧ w.heap (.block b) = true := by
  rw [World.owned, Finset.mem_filter, Finset.mem_range]

theorem Counted.congr (hc : Counted w c limits) (ho : w'.owned c = w.owned c)
    (hs : ∀ b ∈ w.owned c, (w'.block b).capacity = (w.block b).capacity)
    (ht : (w'.control c).capacity = (w.control c).capacity) : Counted w' c limits := by
  refine ⟨fun b hb => ?_, ?_⟩
  · rw [ho] at hb
    rw [hs b hb]
    exact hc.blocks b hb
  · rw [ht, hc.capacity, World.ownedCapacity, World.ownedCapacity, ho]
    exact (Finset.sum_congr rfl hs).symm

/-- No block of a control is missing on its lists. -/
theorem World.HiveOk.owned_eq (hh : HiveOk w h c S) (hc : Counted w c limits) :
    w.owned c = S.blocks.toFinset := by
  have hL := hh.represents.lists
  have hsub : S.blocks.toFinset ⊆ w.owned c := by
    intro b hb
    have hown := hL.owned b (List.mem_toFinset.mp hb)
    exact mem_owned.mpr ⟨hown.known, hown.control, hown.heapBlock⟩
  have hsum : ∑ b ∈ S.blocks.toFinset, (w.block b).capacity = w.ownedCapacity c := by
    rw [← hc.capacity, hh.represents.capacity, List.sum_toFinset _ hL.nodup]
    rfl
  refine (hsub.antisymm fun b hb => ?_).symm
  by_contra hn
  have hlt : ∑ b ∈ S.blocks.toFinset, (w.block b).capacity < w.ownedCapacity c :=
    Finset.sum_lt_sum_of_subset hsub hb hn (hc.blocks b hb).1 fun _ _ _ => Nat.zero_le _
  exact Nat.lt_irrefl _ (hsum ▸ hlt)

/-- Every block of the lists is within the limits. -/
theorem World.HiveOk.within_of_mem (hh : HiveOk w h c S) (hc : Counted w c limits)
    (hb : b ∈ S.blocks) : within limits (w.block b).capacity = true := by
  have hmem : b ∈ w.owned c := by
    rw [hh.owned_eq hc]
    exact List.mem_toFinset.mpr hb
  exact (hc.blocks b hmem).2

/-! ## Operations without allocation -/

/-- The blocks have the same owners and capacities, and the controls the same totals. -/
structure SameBlocks (w w' : World α) : Prop where
  blockControl : w'.blockControl = w.blockControl
  block : ∀ b, (w'.block b).capacity = (w.block b).capacity
  heap : w'.heap = w.heap
  nextBlock : w'.nextBlock = w.nextBlock
  nextControl : w'.nextControl = w.nextControl
  total : ∀ c, (w'.control c).capacity = (w.control c).capacity

theorem SameBlocks.trans (hs : SameBlocks w u) (hs' : SameBlocks u v) : SameBlocks w v :=
  ⟨hs'.blockControl.trans hs.blockControl, fun b => (hs'.block b).trans (hs.block b),
    hs'.heap.trans hs.heap, hs'.nextBlock.trans hs.nextBlock,
    hs'.nextControl.trans hs.nextControl, fun c => (hs'.total c).trans (hs.total c)⟩

theorem SameBlocks.owned (hs : SameBlocks w w') (c : ControlId) : w'.owned c = w.owned c := by
  rw [World.owned, World.owned, hs.nextBlock, hs.blockControl, hs.heap]

theorem SameBlocks.noneFresh (hs : SameBlocks w w') (hf : NoneFresh w) : NoneFresh w' := by
  intro a ha
  rw [hs.heap]
  exact hf a (ha.of_le hs.nextBlock.ge hs.nextControl.ge)

/-- The hives may exchange their controls and limits. -/
theorem SameBlocks.tight (hs : SameBlocks w w') (ht : Tight w)
    (hc : ∀ h c, (w'.container h).control = some c → Counted w c (w'.container h).limits) :
    Tight w' := by
  refine ⟨fun h c hh => ?_, fun b hb hheap => ?_, hs.noneFresh ht.noneFresh⟩
  · exact (hc h c hh).congr (hs.owned c) (fun b _ => hs.block b) (hs.total c)
  · rw [hs.nextBlock] at hb
    rw [hs.heap] at hheap
    rw [hs.blockControl, hs.nextControl]
    exact ht.known b hb hheap

/-- The hives have the same controls and limits. -/
structure SameOwners (w w' : World α) : Prop where
  blocks : SameBlocks w w'
  control : ∀ h, (w'.container h).control = (w.container h).control
  limits : ∀ h, (w'.container h).limits = (w.container h).limits

theorem SameOwners.of_container (hs : SameBlocks w w') (hc : w'.container = w.container) :
    SameOwners w w' :=
  ⟨hs, fun h => by rw [hc], fun h => by rw [hc]⟩

theorem SameOwners.refl : SameOwners w w :=
  .of_container ⟨rfl, fun _ => rfl, rfl, rfl, rfl, fun _ => rfl⟩ rfl

theorem SameOwners.trans (hs : SameOwners w u) (hs' : SameOwners u v) : SameOwners w v :=
  ⟨hs.blocks.trans hs'.blocks, fun h => (hs'.control h).trans (hs.control h),
    fun h => (hs'.limits h).trans (hs.limits h)⟩

theorem SameOwners.tight (hs : SameOwners w w') (ht : Tight w) : Tight w' := by
  refine hs.blocks.tight ht fun h c hc => ?_
  rw [hs.control] at hc
  rw [hs.limits]
  exact ht.counted h c hc

theorem same_tick : SameOwners w (tick w) :=
  .of_container ⟨rfl, fun _ => rfl, rfl, rfl, rfl, fun _ => rfl⟩ rfl

theorem same_modifyBlock {f : Block α → Block α}
    (hf : (f (w.block b)).capacity = (w.block b).capacity) : SameOwners w (w.modifyBlock b f) := by
  refine .of_container ⟨rfl, fun x => ?_, rfl, rfl, rfl, fun _ => rfl⟩ rfl
  by_cases hx : x = b
  · subst hx
    rw [modifyBlock_self]
    exact hf
  · rw [modifyBlock_other _ hx]

theorem update_capacity {k : Control} (hk : k.capacity = (w.control c).capacity) (d : ControlId) :
    (Function.update w.control c k d).capacity = (w.control d).capacity := by
  by_cases hd : d = c
  · rw [hd, Function.update_self, hk]
  · rw [Function.update_of_ne hd]

theorem same_modifyControl {f : Control → Control}
    (hf : (f (w.control c)).capacity = (w.control c).capacity) :
    SameOwners w (w.modifyControl c f) :=
  .of_container ⟨rfl, fun _ => rfl, rfl, rfl, rfl, update_capacity hf⟩ rfl

theorem sameBlocks_modifyContainer (f : Container → Container) :
    SameBlocks w (w.modifyContainer h f) :=
  ⟨rfl, fun _ => rfl, rfl, rfl, rfl, fun _ => rfl⟩

theorem same_modifyContainer {f : Container → Container}
    (hf : (f (w.container h)).control = (w.container h).control)
    (hl : (f (w.container h)).limits = (w.container h).limits) :
    SameOwners w (w.modifyContainer h f) := by
  refine ⟨sameBlocks_modifyContainer f, fun x => ?_, fun x => ?_⟩
  · by_cases hx : x = h
    · subst hx
      simp only [World.modifyContainer, Function.update_self, hf]
    · simp only [World.modifyContainer, Function.update_of_ne hx]
  · by_cases hx : x = h
    · subst hx
      simp only [World.modifyContainer, Function.update_self, hl]
    · simp only [World.modifyContainer, Function.update_of_ne hx]

theorem same_touchEnd : SameOwners w (w.touchEnd h) := same_modifyContainer rfl rfl

theorem same_availableAdd : SameOwners w (w.availableAdd c b) :=
  .of_container ⟨rfl, fun _ => rfl, rfl, rfl, rfl, update_capacity rfl⟩ rfl

theorem same_availableRemove : SameOwners w (w.availableRemove c b) := by
  unfold World.availableRemove
  split
  · exact .of_container ⟨rfl, fun _ => rfl, rfl, rfl, rfl, update_capacity rfl⟩ rfl
  · exact .refl

theorem same_activeAppend : SameOwners w (w.activeAppend c b) :=
  .of_container ⟨rfl, fun _ => rfl, rfl, rfl, rfl, update_capacity rfl⟩ rfl

theorem same_activeRemove : SameOwners w (w.activeRemove c b) :=
  .of_container ⟨rfl, fun _ => rfl, rfl, rfl, rfl, update_capacity rfl⟩ rfl

theorem same_reservedPush : SameOwners w (w.reservedPush c b) :=
  .of_container ⟨rfl, fun _ => rfl, rfl, rfl, rfl, update_capacity rfl⟩ rfl

theorem same_takeReserved : SameOwners w (takeReserved w c b) :=
  .of_container ⟨rfl, fun _ => rfl, rfl, rfl, rfl, update_capacity rfl⟩ rfl

/-! ## A block more, a block less -/

/-- The control `c` of the hive `h` has got a new block. -/
structure Grown (w w' : World α) (h : HiveId) (c : ControlId) (capacity : ℕ) : Prop where
  blockControl : w'.blockControl = Function.update w.blockControl w.nextBlock c
  new : (w'.block w.nextBlock).capacity = capacity
  old : ∀ b < w.nextBlock, (w'.block b).capacity = (w.block b).capacity
  heapNew : w'.heap (.block w.nextBlock) = true
  heap : ∀ b < w.nextBlock, w'.heap (.block b) = w.heap (.block b)
  noneFresh : NoneFresh w'
  nextBlock : w'.nextBlock = w.nextBlock + 1
  nextControl : w'.nextControl = w.nextControl
  total : ∀ k, (w'.control k).capacity = (w.control k).capacity + if k = c then capacity else 0
  control : (w'.container h).control = some c
  others : ∀ y ≠ h, (w'.container y).control = (w.container y).control
  limits : ∀ y, (w'.container y).limits = (w.container y).limits

theorem Grown.mem_owned (hg : Grown w w' h c capacity) :
    b ∈ w'.owned d ↔ b = w.nextBlock ∧ d = c ∨ b ∈ w.owned d := by
  rw [Hive.mem_owned, Hive.mem_owned, hg.nextBlock, Nat.lt_succ_iff_lt_or_eq]
  constructor
  · rintro ⟨hlt | rfl, hd, hheap⟩
    · rw [hg.blockControl, Function.update_of_ne (Nat.ne_of_lt hlt)] at hd
      rw [hg.heap b hlt] at hheap
      exact .inr ⟨hlt, hd, hheap⟩
    · rw [hg.blockControl, Function.update_self] at hd
      exact .inl ⟨rfl, hd.symm⟩
  · rintro (⟨rfl, rfl⟩ | ⟨hlt, hd, hheap⟩)
    · exact ⟨.inr rfl, by rw [hg.blockControl, Function.update_self], hg.heapNew⟩
    · refine ⟨.inl hlt, ?_, by rw [hg.heap b hlt]; exact hheap⟩
      rw [hg.blockControl, Function.update_of_ne (Nat.ne_of_lt hlt)]
      exact hd

theorem Grown.counted (hg : Grown w w' h c capacity) (hc : Counted w c limits)
    (hpos : 0 < capacity) (hin : within limits capacity) : Counted w' c limits := by
  have howned : w'.owned c = insert w.nextBlock (w.owned c) := by
    ext b
    rw [hg.mem_owned, Finset.mem_insert, and_iff_left rfl]
  have hold : ∀ b ∈ w.owned c, (w'.block b).capacity = (w.block b).capacity := fun b hb =>
    hg.old b (Hive.mem_owned.mp hb).1
  have hnew : w.nextBlock ∉ w.owned c := fun hm =>
    Nat.lt_irrefl _ (Hive.mem_owned.mp hm).1
  refine ⟨fun b hb => ?_, ?_⟩
  · rw [howned, Finset.mem_insert] at hb
    obtain rfl | hb := hb
    · rw [hg.new]
      exact ⟨hpos, hin⟩
    · rw [hold b hb]
      exact hc.blocks b hb
  · rw [World.ownedCapacity, howned, Finset.sum_insert hnew, hg.new, Finset.sum_congr rfl hold,
      hg.total, if_pos rfl, hc.capacity, Nat.add_comm]
    rfl

theorem Grown.tight (hg : Grown w w' h c capacity) (ht : Tight w) (hk : c < w.nextControl)
    (hc : Counted w c (w.container h).limits) (hpos : 0 < capacity)
    (hin : within (w.container h).limits capacity)
    (hmine : ∀ y, (w.container y).control = some c → y = h) : Tight w' := by
  refine ⟨fun y k hy => ?_, fun b hb hheap => ?_, hg.noneFresh⟩
  · rw [hg.limits]
    by_cases hyh : y = h
    · subst hyh
      rw [hg.control] at hy
      cases hy
      exact hg.counted hc hpos hin
    · rw [hg.others y hyh] at hy
      have hne : k ≠ c := fun he => hyh (hmine y (he ▸ hy))
      have howned : w'.owned k = w.owned k := by
        ext b
        rw [hg.mem_owned, or_iff_right fun hb => hne hb.2]
      refine (ht.counted y k hy).congr howned (fun b hb => hg.old b (Hive.mem_owned.mp hb).1) ?_
      rw [hg.total, if_neg hne, Nat.add_zero]
  · rw [hg.nextControl]
    rw [hg.nextBlock, Nat.lt_succ_iff_lt_or_eq] at hb
    obtain hlt | rfl := hb
    · rw [hg.blockControl, Function.update_of_ne (Nat.ne_of_lt hlt)]
      rw [hg.heap b hlt] at hheap
      exact ht.known b hlt hheap
    · rw [hg.blockControl, Function.update_self]
      exact hk

/-- A block of the control `c` has been deallocated. -/
structure Shrunk (w w' : World α) (c : ControlId) (b : BlockId) : Prop where
  blockControl : w'.blockControl = w.blockControl
  block : ∀ x, (w'.block x).capacity = (w.block x).capacity
  heap : ∀ x ≠ b, w'.heap (.block x) = w.heap (.block x)
  heapGone : w'.heap (.block b) = false
  noneFresh : NoneFresh w'
  nextBlock : w'.nextBlock = w.nextBlock
  nextControl : w'.nextControl = w.nextControl
  total : (w'.control c).capacity = (w.control c).capacity - (w.block b).capacity
  others : ∀ k ≠ c, (w'.control k).capacity = (w.control k).capacity
  control : ∀ y, (w'.container y).control = (w.container y).control
  limits : ∀ y, (w'.container y).limits = (w.container y).limits

theorem Shrunk.owned (hs : Shrunk w w' c b) : w'.owned d = (w.owned d).erase b := by
  ext x
  rw [Finset.mem_erase, mem_owned, mem_owned, hs.nextBlock, hs.blockControl]
  by_cases hx : x = b
  · subst hx
    simp [hs.heapGone]
  · rw [hs.heap x hx, and_iff_right hx]

theorem Shrunk.tight (hs : Shrunk w w' c b) (ht : Tight w) (hb : b ∈ w.owned c) : Tight w' := by
  refine ⟨fun y k hy => ?_, fun x hx hheap => ?_, hs.noneFresh⟩
  · rw [hs.control] at hy
    rw [hs.limits]
    have hc := ht.counted y k hy
    by_cases hk : k = c
    · subst hk
      refine ⟨fun x hx => ?_, ?_⟩
      · rw [hs.owned, Finset.mem_erase] at hx
        rw [hs.block]
        exact hc.blocks x hx.2
      · have hsum := Finset.add_sum_erase (w.owned k) (fun x => (w.block x).capacity) hb
        rw [hs.total, hc.capacity, World.ownedCapacity, World.ownedCapacity, hs.owned, ← hsum,
          Finset.sum_congr rfl fun x _ => hs.block x]
        exact Nat.add_sub_cancel_left _ _
    · have hne : b ∉ w.owned k := fun hm =>
        hk ((mem_owned.mp hm).2.1.symm.trans (mem_owned.mp hb).2.1)
      refine hc.congr ?_ (fun x _ => hs.block x) (hs.others k hk)
      rw [hs.owned, Finset.erase_eq_of_notMem hne]
  · rw [hs.nextBlock] at hx
    rw [hs.blockControl, hs.nextControl]
    refine ht.known x hx ?_
    by_cases hxb : x = b
    · rw [hxb, hs.heapGone] at hheap
      exact absurd hheap Bool.false_ne_true
    · rw [← hs.heap x hxb]
      exact hheap

/-! ## Controls -/

theorem Undone.tight (hu : Undone w w') (hi : Inv w) (ht : Tight w) : Tight w' := by
  have hold : ∀ b, b < w'.nextBlock → w'.heap (.block b) = true → b < w.nextBlock := by
    intro b _ hheap
    by_contra hn
    rw [hu.heap, ht.noneFresh (.block b) (Nat.le_of_not_lt hn)] at hheap
    exact Bool.false_ne_true hheap
  have howned : ∀ c, w'.owned c = w.owned c := by
    intro c
    ext b
    rw [mem_owned, mem_owned]
    constructor
    · rintro ⟨hb, hc, hheap⟩
      have hlt := hold b hb hheap
      rw [(hu.place b hlt).control] at hc
      rw [hu.heap] at hheap
      exact ⟨hlt, hc, hheap⟩
    · rintro ⟨hlt, hc, hheap⟩
      refine ⟨hlt.trans_le hu.nextBlock, ?_, by rw [hu.heap]; exact hheap⟩
      rw [(hu.place b hlt).control]
      exact hc
  refine ⟨fun h c hc => ?_, fun b hb hheap => ?_, fun a ha => ?_⟩
  · rw [hu.container] at hc ⊢
    obtain ⟨S, hS⟩ := hi h c hc
    refine (ht.counted h c hc).congr (howned c) (fun b hb => ?_) ?_
    · exact (hu.block b (mem_owned.mp hb).1).capacity
    · rw [hu.control c hS.known]
  · have hlt := hold b hb hheap
    rw [hu.heap] at hheap
    rw [(hu.place b hlt).control]
    exact (ht.known b hlt hheap).trans_le hu.nextControl
  · rw [hu.heap]
    exact ht.noneFresh a (ha.of_le hu.nextBlock hu.nextControl)

theorem NewControl.owned (hn : NewControl w u h) (k : ControlId) : u.owned k = w.owned k := by
  ext b
  rw [mem_owned, mem_owned, hn.nextBlock, hn.blockControl, hn.heap _ (by simp)]

theorem NewControl.tight (hn : NewControl w u h) (hf : NoneFresh u) (hi : Inv w) (ht : Tight w) :
    Tight u := by
  refine ⟨fun y k hy => ?_, fun b hb hb' => ?_, hf⟩
  · rw [hn.container] at hy ⊢
    obtain ⟨T, hT⟩ := hi y k hy
    refine (ht.counted y k hy).congr (hn.owned k) (fun b _ => by rw [hn.block]) ?_
    rw [hn.control, Function.update_of_ne (Nat.ne_of_lt hT.known)]
  · rw [hn.nextBlock] at hb
    rw [hn.heap _ (by simp)] at hb'
    rw [hn.blockControl, hn.nextControl]
    exact (ht.known b hb hb').trans (Nat.lt_succ_self _)

/-- The control for a call accounts for its blocks, and only its hive uses it. -/
theorem ControlFor.counted (hf : ControlFor w u h c) (hi : Inv w) (ht : Tight w) :
    Tight u ∧ Counted u c (w.container h).limits ∧ c < u.nextControl ∧
      u.container = w.container ∧ ∀ y, (w.container y).control = some c → y = h := by
  obtain ⟨hc, rfl⟩ | ⟨-, rfl, rfl⟩ := hf
  · obtain ⟨S, hS⟩ := hi h c hc
    refine ⟨ht, ht.counted h c hc, hS.known, rfl, fun y hy => ?_⟩
    obtain ⟨T, hT⟩ := hi y c hy
    exact hS.unique hT
  · have hnew : NewControl w (withControl w h) h := newControl_withControl
    have hfresh : NoneFresh (withControl w h) := noneFresh_withControl ht.noneFresh
    generalize withControl w h = u at hnew hfresh ⊢
    have howned : u.owned w.nextControl = ∅ := by
      refine Finset.eq_empty_of_forall_notMem fun b hb => ?_
      rw [hnew.owned] at hb
      obtain ⟨hlt, hc, hheap⟩ := mem_owned.mp hb
      exact Nat.lt_irrefl _ (hc ▸ ht.known b hlt hheap)
    refine ⟨hnew.tight hfresh hi ht, ⟨fun b hb => ?_, ?_⟩, ?_, hnew.container, fun y hy => ?_⟩
    · rw [howned] at hb
      exact absurd hb (Finset.notMem_empty b)
    · rw [World.ownedCapacity, howned, Finset.sum_empty, hnew.control, Function.update_self]
    · rw [hnew.nextControl]
      exact Nat.lt_succ_self _
    · obtain ⟨T, hT⟩ := hi y _ hy
      exact absurd hT.known (Nat.lt_irrefl _)

end CCForge.Hive
