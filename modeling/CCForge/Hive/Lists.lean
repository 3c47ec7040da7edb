import Mathlib.Data.Set.Basic
import Mathlib.Algebra.Order.Group.Nat
import CCForge.Hive.Model

/-!
# The lists of a control

The active and the available list are doubly linked, the reserved list is singly
linked. Every helper of the source that moves a block from one list to another is
described by the lists before and after it, and by what it leaves alone: the blocks
of every other control.
-/

namespace CCForge.Hive

variable {α : Type}

/-- The blocks of a control, list by list. A block that an operation has taken from
one list and not yet put on another one is floating. -/
structure Shape where
  active : List BlockId
  reserved : List BlockId
  available : List BlockId
  floating : List BlockId := []

def Shape.blocks (S : Shape) : List BlockId := S.active ++ S.reserved ++ S.floating

theorem Shape.mem_blocks {S : Shape} {b : BlockId} :
    b ∈ S.blocks ↔ b ∈ S.active ∨ b ∈ S.reserved ∨ b ∈ S.floating := by
  simp [Shape.blocks]

namespace World

variable {w w' w'' : World α} {c : ControlId} {S S' : Shape} {b : BlockId}

@[simp] theorem modifyControl_self (f : Control → Control) :
    (w.modifyControl c f).control c = f (w.control c) := Function.update_self _ _ _

theorem modifyControl_other {k : ControlId} (f : Control → Control) (hk : k ≠ c) :
    (w.modifyControl c f).control k = w.control k := Function.update_of_ne hk _ _

@[simp] theorem modifyBlock_self (f : Block α → Block α) :
    (w.modifyBlock b f).block b = f (w.block b) := Function.update_self _ _ _

theorem modifyBlock_other {x : BlockId} (f : Block α → Block α) (hx : x ≠ b) :
    (w.modifyBlock b f).block x = w.block x := Function.update_of_ne hx _ _

/-! ## What an operation leaves alone -/

/-- All that is stored about a block is the same. -/
structure SameBlock (w w' : World α) (b : BlockId) : Prop where
  block : w'.block b = w.block b
  control : w'.blockControl b = w.blockControl b
  order : w'.order b = w.order b
  active : w'.active b = w.active b
  inAvailable : w'.inAvailable b = w.inAvailable b
  activeLinks : w.activeLinks.SameAt w'.activeLinks b
  availableLinks : w.availableLinks.SameAt w'.availableLinks b
  reservedNext : w'.reservedNext b = w.reservedNext b
  heapBlock : w'.heap (.block b) = w.heap (.block b)
  heapSlots : w'.heap (.slots b) = w.heap (.slots b)
  heapSkip : w'.heap (.skip b) = w.heap (.skip b)

theorem SameBlock.rfl : SameBlock w w b :=
  ⟨Eq.refl _, Eq.refl _, Eq.refl _, Eq.refl _, Eq.refl _, .rfl, .rfl, Eq.refl _, Eq.refl _, Eq.refl _,
    Eq.refl _⟩

theorem SameBlock.trans (h : SameBlock w w' b) (h' : SameBlock w' w'' b) : SameBlock w w'' b :=
  ⟨h'.block.trans h.block, h'.control.trans h.control, h'.order.trans h.order,
    h'.active.trans h.active, h'.inAvailable.trans h.inAvailable, h.activeLinks.trans h'.activeLinks,
    h.availableLinks.trans h'.availableLinks, h'.reservedNext.trans h.reservedNext,
    h'.heapBlock.trans h.heapBlock, h'.heapSlots.trans h.heapSlots, h'.heapSkip.trans h.heapSkip⟩

/-- Only the controls in `C`, their blocks and new objects have changed. -/
structure Local (C : Set ControlId) (w w' : World α) : Prop where
  block : ∀ b, b < w.nextBlock → w.blockControl b ∉ C → SameBlock w w' b
  control : ∀ k, k < w.nextControl → k ∉ C → w'.control k = w.control k
  heap : ∀ k, k < w.nextControl → k ∉ C → w'.heap (.control k) = w.heap (.control k)
  nextBlock : w.nextBlock ≤ w'.nextBlock
  nextControl : w.nextControl ≤ w'.nextControl

variable {C D : Set ControlId}

theorem Local.refl : Local C w w :=
  ⟨fun _ _ _ => .rfl, fun _ _ _ => rfl, fun _ _ _ => rfl, le_refl _, le_refl _⟩

theorem Local.trans (h : Local C w w') (h' : Local C w' w'') : Local C w w'' := by
  refine ⟨fun b hb hc => ?_, fun k hk hc => ?_, fun k hk hc => ?_, le_trans h.nextBlock h'.nextBlock,
    le_trans h.nextControl h'.nextControl⟩
  · have hsame := h.block b hb hc
    refine hsame.trans (h'.block b (lt_of_lt_of_le hb h.nextBlock) ?_)
    rw [hsame.control]
    exact hc
  · rw [h'.control k (lt_of_lt_of_le hk h.nextControl) hc, h.control k hk hc]
  · rw [h'.heap k (lt_of_lt_of_le hk h.nextControl) hc, h.heap k hk hc]

theorem Local.mono (h : Local C w w') (hCD : C ⊆ D) : Local D w w' :=
  ⟨fun b hb hc => h.block b hb fun hm => hc (hCD hm), fun k hk hc => h.control k hk fun hm => hc (hCD hm),
    fun k hk hc => h.heap k hk fun hm => hc (hCD hm), h.nextBlock, h.nextControl⟩

theorem local_modifyControl (hc : c ∈ C) (f : Control → Control) : Local C w (w.modifyControl c f) :=
  ⟨fun _ _ _ => ⟨rfl, rfl, rfl, rfl, rfl, .rfl, .rfl, rfl, rfl, rfl, rfl⟩,
    fun _ _ hk => modifyControl_other f fun he => hk (he ▸ hc), fun _ _ _ => rfl, le_refl _, le_refl _⟩

theorem local_modifyBlock (hb : w.blockControl b ∈ C) (f : Block α → Block α) :
    Local C w (w.modifyBlock b f) := by
  refine ⟨fun x _ hx => ?_, fun _ _ _ => rfl, fun _ _ _ => rfl, le_refl _, le_refl _⟩
  have hne : x ≠ b := fun he => hx (he ▸ hb)
  exact ⟨modifyBlock_other f hne, rfl, rfl, rfl, rfl, .rfl, .rfl, rfl, rfl, rfl, rfl⟩

theorem local_modifyContainer (h : HiveId) (f : Container → Container) :
    Local C w (w.modifyContainer h f) :=
  ⟨fun _ _ _ => ⟨rfl, rfl, rfl, rfl, rfl, .rfl, .rfl, rfl, rfl, rfl, rfl⟩, fun _ _ _ => rfl,
    fun _ _ _ => rfl, le_refl _, le_refl _⟩

/-! ## The lists -/

/-- A block that belongs to a control and whose memory is allocated. -/
structure Owned (w : World α) (c : ControlId) (b : BlockId) : Prop where
  control : w.blockControl b = c
  known : b < w.nextBlock
  heapBlock : w.heap (.block b) = true
  heapSlots : w.heap (.slots b) = true
  heapSkip : w.heap (.skip b) = true

structure ActivePart (w : World α) (c : ControlId) (S : Shape) : Prop where
  head : (w.control c).activeHead = S.active.head?
  tail : (w.control c).activeTail = S.active.getLast?
  seg : w.activeLinks.Seg none S.active none
  ordered : S.active.Pairwise fun a b => w.order a < w.order b
  stamped : ∀ b ∈ S.active, w.order b < (w.control c).nextBlockOrder
  flag : ∀ b ∈ S.blocks, w.active b = true ↔ b ∈ S.active
  clean : ∀ b ∈ S.blocks, b ∉ S.active → w.activeLinks.next b = none ∧ w.activeLinks.prev b = none

structure AvailablePart (w : World α) (c : ControlId) (S : Shape) : Prop where
  head : (w.control c).availableHead = S.available.head?
  seg : w.availableLinks.Seg none S.available none
  nodup : S.available.Nodup
  sub : ∀ b ∈ S.available, b ∈ S.active
  flag : ∀ b ∈ S.blocks, w.inAvailable b = true ↔ b ∈ S.available
  clean : ∀ b ∈ S.blocks, b ∉ S.available →
    w.availableLinks.next b = none ∧ w.availableLinks.prev b = none

structure ReservedPart (w : World α) (c : ControlId) (S : Shape) : Prop where
  chain : Chain w.reservedNext (w.control c).reservedHead S.reserved
  clean : ∀ b ∈ S.blocks, b ∉ S.reserved → w.reservedNext b = none

/-- The lists of the control `c` are those of `S`. -/
structure Lists (w : World α) (c : ControlId) (S : Shape) : Prop where
  active : ActivePart w c S
  available : AvailablePart w c S
  reserved : ReservedPart w c S
  nodup : S.blocks.Nodup
  owned : ∀ b ∈ S.blocks, Owned w c b

theorem Owned.of_same (h : Owned w c b) (hs : SameBlock w w' b) (hn : w.nextBlock ≤ w'.nextBlock) :
    Owned w' c b :=
  ⟨hs.control.trans h.control, lt_of_lt_of_le h.known hn, hs.heapBlock.trans h.heapBlock,
    hs.heapSlots.trans h.heapSlots, hs.heapSkip.trans h.heapSkip⟩

/-- Where a block is allocated is in few columns. -/
theorem Owned.of_columns {k : ControlId} (h : Owned w c b) (hk : w'.blockControl b = k)
    (hn : w'.nextBlock = w.nextBlock)
    (hheap : ∀ a, a = .block b ∨ a = .slots b ∨ a = .skip b → w'.heap a = w.heap a) : Owned w' k b :=
  ⟨hk, hn ▸ h.known, (hheap _ (.inl rfl)).trans h.heapBlock,
    (hheap _ (.inr (.inl rfl))).trans h.heapSlots, (hheap _ (.inr (.inr rfl))).trans h.heapSkip⟩

/-- The active list only depends on its own columns. -/
theorem ActivePart.congr (h : ActivePart w c S) (hact : S'.active = S.active)
    (hsub : ∀ b ∈ S'.blocks, b ∈ S.blocks)
    (hhead : (w'.control c).activeHead = (w.control c).activeHead)
    (htail : (w'.control c).activeTail = (w.control c).activeTail)
    (hstamp : (w'.control c).nextBlockOrder = (w.control c).nextBlockOrder)
    (hs : ∀ b ∈ S.blocks, w.activeLinks.SameAt w'.activeLinks b ∧ w'.order b = w.order b ∧
      w'.active b = w.active b) : ActivePart w' c S' := by
  have hin : ∀ b ∈ S.active, b ∈ S.blocks := fun b hb => Shape.mem_blocks.mpr (.inl hb)
  refine ⟨?_, ?_, ?_, ?_, ?_, ?_, ?_⟩
  · rw [hhead, h.head, hact]
  · rw [htail, h.tail, hact]
  · rw [hact]
    exact h.seg.of_same fun b hb => (hs b (hin b hb)).1
  · rw [hact]
    refine h.ordered.imp_of_mem fun ha hb hlt => ?_
    rw [(hs _ (hin _ ha)).2.1, (hs _ (hin _ hb)).2.1]
    exact hlt
  · intro b hb
    rw [hact] at hb
    rw [(hs b (hin b hb)).2.1, hstamp]
    exact h.stamped b hb
  · intro b hb
    rw [(hs b (hsub b hb)).2.2, hact]
    exact h.flag b (hsub b hb)
  · intro b hb hn
    rw [hact] at hn
    rw [(hs b (hsub b hb)).1.next, (hs b (hsub b hb)).1.prev]
    exact h.clean b (hsub b hb) hn

theorem AvailablePart.congr (h : AvailablePart w c S) (hav : S'.available = S.available)
    (hact : ∀ b ∈ S.available, b ∈ S'.active) (hsub : ∀ b ∈ S'.blocks, b ∈ S.blocks)
    (hhead : (w'.control c).availableHead = (w.control c).availableHead)
    (hs : ∀ b ∈ S.blocks, w.availableLinks.SameAt w'.availableLinks b ∧
      w'.inAvailable b = w.inAvailable b) : AvailablePart w' c S' := by
  have hin : ∀ b ∈ S.available, b ∈ S.blocks := fun b hb =>
    Shape.mem_blocks.mpr (.inl (h.sub b hb))
  refine ⟨?_, ?_, ?_, ?_, ?_, ?_⟩
  · rw [hhead, h.head, hav]
  · rw [hav]
    exact h.seg.of_same fun b hb => (hs b (hin b hb)).1
  · rw [hav]
    exact h.nodup
  · rw [hav]
    exact hact
  · intro b hb
    rw [(hs b (hsub b hb)).2, hav]
    exact h.flag b (hsub b hb)
  · intro b hb hn
    rw [hav] at hn
    rw [(hs b (hsub b hb)).1.next, (hs b (hsub b hb)).1.prev]
    exact h.clean b (hsub b hb) hn

theorem ReservedPart.congr (h : ReservedPart w c S) (hres : S'.reserved = S.reserved)
    (hsub : ∀ b ∈ S'.blocks, b ∈ S.blocks)
    (hhead : (w'.control c).reservedHead = (w.control c).reservedHead)
    (hs : ∀ b ∈ S.blocks, w'.reservedNext b = w.reservedNext b) : ReservedPart w' c S' := by
  refine ⟨?_, fun b hb hn => ?_⟩
  · rw [hres, hhead]
    exact h.chain.congr fun b hb => hs b (Shape.mem_blocks.mpr (.inr (.inl hb)))
  · rw [hres] at hn
    rw [hs b (hsub b hb)]
    exact h.clean b (hsub b hb) hn

theorem Lists.of_local (h : Lists w c S) (hl : Local C w w') (hk : c < w.nextControl) (hc : c ∉ C) :
    Lists w' c S := by
  have hsame : ∀ b ∈ S.blocks, SameBlock w w' b := fun b hb => by
    refine hl.block b (h.owned b hb).known ?_
    rw [(h.owned b hb).control]
    exact hc
  have hcontrol := hl.control c hk hc
  refine ⟨h.active.congr rfl (fun _ hb => hb) ?_ ?_ ?_ ?_,
    h.available.congr rfl h.available.sub (fun _ hb => hb) ?_ ?_,
    h.reserved.congr rfl (fun _ hb => hb) ?_ ?_, h.nodup, ?_⟩
  · rw [hcontrol]
  · rw [hcontrol]
  · rw [hcontrol]
  · exact fun b hb => ⟨(hsame b hb).activeLinks, (hsame b hb).order, (hsame b hb).active⟩
  · rw [hcontrol]
  · exact fun b hb => ⟨(hsame b hb).availableLinks, (hsame b hb).inAvailable⟩
  · rw [hcontrol]
  · exact fun b hb => (hsame b hb).reservedNext
  · exact fun b hb => (h.owned b hb).of_same (hsame b hb) hl.nextBlock

/-- The columns of the lists, and the list fields of the control, are the same. -/
structure SameLists (w w' : World α) (c : ControlId) : Prop where
  activeLinks : w'.activeLinks = w.activeLinks
  availableLinks : w'.availableLinks = w.availableLinks
  reservedNext : w'.reservedNext = w.reservedNext
  order : w'.order = w.order
  active : w'.active = w.active
  inAvailable : w'.inAvailable = w.inAvailable
  blockControl : w'.blockControl = w.blockControl
  heap : w'.heap = w.heap
  nextBlock : w'.nextBlock = w.nextBlock
  activeHead : (w'.control c).activeHead = (w.control c).activeHead
  activeTail : (w'.control c).activeTail = (w.control c).activeTail
  reservedHead : (w'.control c).reservedHead = (w.control c).reservedHead
  availableHead : (w'.control c).availableHead = (w.control c).availableHead
  nextBlockOrder : (w'.control c).nextBlockOrder = (w.control c).nextBlockOrder

theorem Lists.of_same (h : Lists w c S) (hs : SameLists w w' c) : Lists w' c S := by
  refine ⟨h.active.congr rfl (fun _ hb => hb) hs.activeHead hs.activeTail hs.nextBlockOrder ?_,
    h.available.congr rfl h.available.sub (fun _ hb => hb) hs.availableHead ?_,
    h.reserved.congr rfl (fun _ hb => hb) hs.reservedHead ?_, h.nodup, ?_⟩
  · intro b _
    rw [hs.activeLinks, hs.order, hs.active]
    exact ⟨.rfl, rfl, rfl⟩
  · intro b _
    rw [hs.availableLinks, hs.inAvailable]
    exact ⟨.rfl, rfl⟩
  · intro b _
    rw [hs.reservedNext]
  · intro b hb
    have hown := h.owned b hb
    exact hown.of_columns (by rw [hs.blockControl, hown.control]) hs.nextBlock fun _ _ => by rw [hs.heap]

/-! ## Moving one block -/

theorem Lists.available_mem (h : Lists w c S) (hb : (w.control c).availableHead = some b) :
    b ∈ S.available := by
  have hhead := h.available.head
  rw [hb] at hhead
  exact List.mem_of_head? hhead.symm

theorem Lists.available_nil (h : Lists w c S) (hn : (w.control c).availableHead = none) :
    S.available = [] := by
  have hhead := h.available.head
  rw [hn] at hhead
  exact List.head?_eq_none_iff.mp hhead.symm

theorem Lists.reserved_cons (h : Lists w c S) (hb : (w.control c).reservedHead = some b) :
    ∃ rest, S.reserved = b :: rest := by
  have hhead := h.reserved.chain.head
  rw [hb] at hhead
  exact List.head?_eq_some_iff.mp hhead.symm

theorem Lists.reserved_nil (h : Lists w c S) (hn : (w.control c).reservedHead = none) :
    S.reserved = [] := by
  have hhead := h.reserved.chain.head
  rw [hn] at hhead
  exact List.head?_eq_none_iff.mp hhead.symm

theorem Lists.mem_owned (h : Lists w c S) (hb : b ∈ S.blocks) : w.blockControl b = c :=
  (h.owned b hb).control

/-- A block of another control is on no list of this one. -/
theorem Lists.notMem (h : Lists w c S) (hb : w.blockControl b ∉ ({c} : Set ControlId)) :
    b ∉ S.blocks := fun hm => hb (h.mem_owned hm)

theorem Lists.availableAdd (h : Lists w c S) (hb : b ∈ S.active) (hn : b ∉ S.available) :
    Lists (w.availableAdd c b) c { S with available := b :: S.available } := by
  have hnodup : (b :: S.available).Nodup := List.nodup_cons.mpr ⟨hn, h.available.nodup⟩
  refine ⟨h.active.congr rfl (fun _ hx => hx) ?_ ?_ ?_ (fun _ _ => ⟨.rfl, rfl, rfl⟩), ?_,
    h.reserved.congr rfl (fun _ hx => hx) ?_ (fun _ _ => rfl), h.nodup, ?_⟩
  · simp [World.availableAdd]
  · simp [World.availableAdd]
  · simp [World.availableAdd]
  · refine ⟨by simp [World.availableAdd], ?_, hnodup, ?_, ?_, ?_⟩
    · simp only [World.availableAdd, h.available.head]
      exact h.available.seg.push hnodup
    · intro x hx
      rcases List.mem_cons.mp hx with rfl | hx
      · exact hb
      · exact h.available.sub x hx
    · intro x hx
      by_cases hxb : x = b
      · simp [World.availableAdd, hxb]
      · simp only [World.availableAdd, Function.update_of_ne hxb, List.mem_cons, hxb, false_or]
        exact h.available.flag x hx
    · intro x hx hnx
      have hsame := Links.push_same (L := w.availableLinks) hnx
      simp only [World.availableAdd, h.available.head]
      rw [hsame.next, hsame.prev]
      exact h.available.clean x hx fun hm => hnx (List.mem_cons_of_mem b hm)
  · simp [World.availableAdd]
  · exact fun x hx => ⟨(h.owned x hx).control, (h.owned x hx).known, (h.owned x hx).heapBlock,
      (h.owned x hx).heapSlots, (h.owned x hx).heapSkip⟩

theorem Lists.local_availableAdd (h : Lists w c S) (hb : b ∈ S.blocks) :
    Local {c} w (w.availableAdd c b) := by
  refine ⟨fun x _ hx => ?_, fun k _ hk => ?_, fun _ _ _ => rfl, le_refl _, le_refl _⟩
  · have hxS := h.notMem hx
    have hxb : x ≠ b := fun he => hxS (he ▸ hb)
    have hav : x ∉ S.available := fun hm => hxS (Shape.mem_blocks.mpr (.inl (h.available.sub x hm)))
    refine ⟨rfl, rfl, rfl, rfl, Function.update_of_ne hxb _ _, .rfl, ?_, rfl, rfl, rfl, rfl⟩
    simp only [World.availableAdd, h.available.head]
    exact Links.push_same (by simp [hxb, hav])
  · exact Function.update_of_ne hk _ _

theorem Lists.availableRemove (h : Lists w c S) (hb : b ∈ S.blocks) :
    Lists (w.availableRemove c b) c { S with available := S.available.filter (· ≠ b) } := by
  by_cases hin : w.inAvailable b = true
  · have hmem := (h.available.flag b hb).mp hin
    obtain ⟨l₁, l₂, hl⟩ := List.append_of_mem hmem
    have hseg := h.available.seg
    have hnodup := h.available.nodup
    rw [hl] at hseg hnodup
    have hne : ∀ x ∈ l₁ ++ l₂, x ≠ b := by
      intro x hx he
      rw [List.nodup_middle, List.nodup_cons] at hnodup
      exact hnodup.1 (he ▸ hx)
    have hfilter : S.available.filter (· ≠ b) = l₁ ++ l₂ := by
      rw [hl, List.filter_append, List.filter_cons_of_neg (by simp), ← List.filter_append,
        List.filter_eq_self.mpr (by simpa using hne)]
    have hw : w.availableRemove c b = { w.modifyControl c (fun k =>
        { k with
          availableHead :=
            if (w.availableLinks.prev b).isNone then w.availableLinks.next b
            else k.availableHead }) with
        inAvailable := Function.update w.inAvailable b false
        availableLinks := w.availableLinks.unlink b } := if_pos hin
    rw [hw, hfilter]
    refine ⟨h.active.congr rfl (fun _ hx => hx) ?_ ?_ ?_ (fun _ _ => ⟨.rfl, rfl, rfl⟩), ?_,
      h.reserved.congr rfl (fun _ hx => hx) ?_ (fun _ _ => rfl), h.nodup, ?_⟩
    · simp
    · simp
    · simp
    · refine ⟨?_, hseg.unlink hnodup, ?_, ?_, ?_, ?_⟩
      · simp only [modifyControl_self]
        rw [hseg.head_without, h.available.head, hl]
      · rw [← hfilter]
        exact h.available.nodup.filter _
      · intro x hx
        rw [← hfilter] at hx
        exact h.available.sub x (List.mem_filter.mp hx).1
      · intro x hx
        by_cases hxb : x = b
        · subst hxb
          simp only [Function.update_self, Bool.false_eq_true, false_iff]
          exact fun hm => hne x hm rfl
        · simp only [Function.update_of_ne hxb]
          rw [h.available.flag x hx, ← hfilter]
          simp [hxb]
      · intro x hx hnx
        by_cases hxb : x = b
        · subst hxb
          simp [Links.unlink]
        · have hnl : x ∉ l₁ ++ b :: l₂ := by
            rw [List.mem_append, not_or] at hnx
            simp [hnx.1, hnx.2, hxb]
          have hsame := Links.unlink_same hseg hnl
          rw [hsame.next, hsame.prev]
          exact h.available.clean x hx (by rw [hl]; exact hnl)
    · simp
    · exact fun x hx => ⟨(h.owned x hx).control, (h.owned x hx).known, (h.owned x hx).heapBlock,
        (h.owned x hx).heapSlots, (h.owned x hx).heapSkip⟩
  · have hw : w.availableRemove c b = w := if_neg hin
    have hfilter : S.available.filter (· ≠ b) = S.available := by
      rw [List.filter_eq_self]
      intro x hx
      have hne : x ≠ b := by
        rintro rfl
        exact hin ((h.available.flag x hb).mpr hx)
      simpa using hne
    rw [hw, hfilter]
    exact h

theorem availableRemove_block : (w.availableRemove c b).block = w.block := by
  unfold World.availableRemove
  split <;> rfl

theorem availableRemove_control : ((w.availableRemove c b).control c).size = (w.control c).size ∧
    ((w.availableRemove c b).control c).capacity = (w.control c).capacity ∧
    ((w.availableRemove c b).control c).owner = (w.control c).owner := by
  unfold World.availableRemove
  split <;> simp

theorem Lists.local_availableRemove (h : Lists w c S) (hb : b ∈ S.blocks) :
    Local {c} w (w.availableRemove c b) := by
  by_cases hin : w.inAvailable b = true
  · have hmem := (h.available.flag b hb).mp hin
    obtain ⟨l₁, l₂, hl⟩ := List.append_of_mem hmem
    have hseg := h.available.seg
    rw [hl] at hseg
    have hw : w.availableRemove c b = _ := if_pos hin
    rw [hw]
    refine ⟨fun x _ hx => ?_, fun k _ hk => Function.update_of_ne hk _ _, fun _ _ _ => rfl, le_refl _,
      le_refl _⟩
    have hxS := h.notMem hx
    have hxb : x ≠ b := fun he => hxS (he ▸ hb)
    refine ⟨rfl, rfl, rfl, rfl, Function.update_of_ne hxb _ _, .rfl, ?_, rfl, rfl, rfl, rfl⟩
    refine Links.unlink_same hseg ?_
    rw [← hl]
    exact fun hm => hxS (Shape.mem_blocks.mpr (.inl (h.available.sub x hm)))
  · have hw : w.availableRemove c b = w := if_neg hin
    rw [hw]
    exact .refl

/-- A floating block goes to the end of the active list. -/
theorem Lists.activeAppend (h : Lists w c S) (hS : S.floating = [b]) :
    Lists (w.activeAppend c b) c { S with active := S.active ++ [b], floating := [] } := by
  have hmem : ∀ x, x ∈ ({ S with active := S.active ++ [b], floating := [] } : Shape).blocks →
      x ∈ S.blocks := by
    intro x
    simp only [Shape.mem_blocks, hS, List.mem_append, List.mem_singleton, List.not_mem_nil]
    tauto
  have hnodup := h.nodup
  simp only [Shape.blocks, hS] at hnodup
  obtain ⟨hn, -, hb⟩ := List.nodup_append.mp hnodup
  obtain ⟨hn₁, hn₂, hn₁₂⟩ := List.nodup_append.mp hn
  have hnb : b ∉ S.active := fun hm => hb b (List.mem_append_left _ hm) b List.mem_cons_self rfl
  have hbS : b ∈ S.blocks := Shape.mem_blocks.mpr (.inr (.inr (by simp [hS])))
  have happ : (S.active ++ [b]).Nodup := by
    rw [List.nodup_append]
    exact ⟨hn₁, List.nodup_singleton b, fun x hx y hy he => hnb (by simp_all)⟩
  refine ⟨?_, h.available.congr rfl ?_ hmem ?_ (fun _ _ => ⟨.rfl, rfl⟩),
    h.reserved.congr rfl hmem ?_ (fun _ _ => rfl), ?_, ?_⟩
  · refine ⟨?_, by simp [World.activeAppend], ?_, ?_, ?_, ?_, ?_⟩
    · simp only [World.activeAppend, modifyControl_self, h.active.tail, h.active.head]
      cases S.active <;> simp
    · simp only [World.activeAppend, h.active.tail]
      exact h.active.seg.append happ
    · have hold : ∀ x ∈ S.active, (w.activeAppend c b).order x = w.order x := fun x hx =>
        Function.update_of_ne (fun he => hnb (by rw [← he]; exact hx)) _ _
      rw [List.pairwise_append]
      refine ⟨?_, List.pairwise_singleton _ b, ?_⟩
      · refine h.active.ordered.imp_of_mem fun hx hy hlt => ?_
        rw [hold _ hx, hold _ hy]
        exact hlt
      · intro x hx y hy
        rw [List.mem_singleton.mp hy, hold x hx]
        simp only [World.activeAppend, Function.update_self]
        exact h.active.stamped x hx
    · intro x hx
      simp only [World.activeAppend, modifyControl_self]
      by_cases hxb : x = b
      · rw [hxb, Function.update_self]
        omega
      · rw [Function.update_of_ne hxb]
        have hlt := h.active.stamped x (by simpa [hxb] using hx)
        omega
    · intro x hx
      by_cases hxb : x = b
      · simp [World.activeAppend, hxb]
      · simp only [World.activeAppend, Function.update_of_ne hxb, List.mem_append,
          List.mem_singleton, hxb, or_false]
        exact h.active.flag x (hmem x hx)
    · intro x hx hnx
      have hsame := Links.append_same (L := w.activeLinks) hnx
      simp only [World.activeAppend, h.active.tail]
      rw [hsame.next, hsame.prev]
      exact h.active.clean x (hmem x hx) fun hm => hnx (List.mem_append_left _ hm)
  · exact fun x hx => List.mem_append_left _ (h.available.sub x hx)
  · simp [World.activeAppend]
  · simp [World.activeAppend]
  · simp only [Shape.blocks, List.append_nil]
    rw [List.nodup_append]
    refine ⟨happ, hn₂, fun x hx y hy => ?_⟩
    rcases List.mem_append.mp hx with hx | hx
    · exact hn₁₂ x hx y hy
    · rw [List.mem_singleton.mp hx]
      exact fun he => hb y (List.mem_append_right _ hy) b List.mem_cons_self he.symm
  · intro x hx
    have hox := h.owned x (hmem x hx)
    exact ⟨hox.control, hox.known, hox.heapBlock, hox.heapSlots, hox.heapSkip⟩

theorem Lists.local_activeAppend (h : Lists w c S) (hb : b ∈ S.blocks) :
    Local {c} w (w.activeAppend c b) := by
  refine ⟨fun x _ hx => ?_, fun k _ hk => Function.update_of_ne hk _ _, fun _ _ _ => rfl, le_refl _,
    le_refl _⟩
  have hxS := h.notMem hx
  have hxb : x ≠ b := fun he => hxS (he ▸ hb)
  refine ⟨rfl, rfl, Function.update_of_ne hxb _ _, Function.update_of_ne hxb _ _, rfl, ?_, .rfl, rfl,
    rfl, rfl, rfl⟩
  simp only [World.activeAppend, h.active.tail]
  refine Links.append_same ?_
  rw [List.mem_append, List.mem_singleton, not_or]
  exact ⟨fun hm => hxS (Shape.mem_blocks.mpr (.inl hm)), hxb⟩

/-- A block leaves the active list and floats. -/
theorem Lists.activeRemove {l₁ l₂ : List BlockId} (h : Lists w c S) (hS : S.active = l₁ ++ b :: l₂)
    (hf : S.floating = []) (hn : b ∉ S.available) :
    Lists (w.activeRemove c b) c { S with active := l₁ ++ l₂, floating := [b] } := by
  have hmem : ∀ x, x ∈ ({ S with active := l₁ ++ l₂, floating := [b] } : Shape).blocks ↔
      x ∈ S.blocks := by
    intro x
    simp only [Shape.mem_blocks, hS, hf, List.mem_append, List.mem_cons, List.not_mem_nil, or_false]
    tauto
  have hnodup := h.nodup
  simp only [Shape.blocks, hS, hf, List.append_nil] at hnodup
  have hact : (l₁ ++ b :: l₂).Nodup := (List.nodup_append.mp hnodup).1
  have hseg := h.active.seg
  rw [hS] at hseg
  have hb : b ∉ l₁ ++ l₂ := by
    have hx := hact
    rw [List.nodup_middle, List.nodup_cons] at hx
    exact hx.1
  have hsub : ∀ x ∈ l₁ ++ l₂, x ∈ S.active := by
    intro x hx
    rw [hS]
    simp only [List.mem_append, List.mem_cons] at hx ⊢
    tauto
  refine ⟨?_, h.available.congr rfl ?_ (fun x hx => (hmem x).mp hx) ?_ (fun _ _ => ⟨.rfl, rfl⟩),
    h.reserved.congr rfl (fun x hx => (hmem x).mp hx) ?_ (fun _ _ => rfl), ?_, ?_⟩
  · refine ⟨?_, ?_, hseg.unlink hact, ?_, ?_, ?_, ?_⟩
    · simp only [World.activeRemove, modifyControl_self]
      rw [hseg.head_without, h.active.head, hS]
    · simp only [World.activeRemove, modifyControl_self]
      rw [hseg.last_without, h.active.tail, hS]
    · have hord := h.active.ordered
      rw [hS] at hord
      exact hord.sublist (List.Sublist.append_left (List.sublist_cons_self b l₂) l₁)
    · intro x hx
      simp only [World.activeRemove, modifyControl_self]
      exact h.active.stamped x (hsub x hx)
    · intro x hx
      by_cases hxb : x = b
      · subst hxb
        simp only [World.activeRemove, Function.update_self, Bool.false_eq_true, false_iff]
        exact hb
      · simp only [World.activeRemove, Function.update_of_ne hxb]
        rw [h.active.flag x ((hmem x).mp hx), hS]
        simp [hxb]
    · intro x hx hnx
      by_cases hxb : x = b
      · subst hxb
        simp [World.activeRemove, Links.unlink]
      · have hnl : x ∉ l₁ ++ b :: l₂ := by
          rw [List.mem_append, not_or] at hnx
          simp [hnx.1, hnx.2, hxb]
        have hsame := Links.unlink_same hseg hnl
        simp only [World.activeRemove]
        rw [hsame.next, hsame.prev]
        exact h.active.clean x ((hmem x).mp hx) (by rw [hS]; exact hnl)
  · intro x hx
    have hxa := h.available.sub x hx
    rw [hS] at hxa
    have hxb : x ≠ b := fun he => hn (he ▸ hx)
    simpa [hxb] using hxa
  · simp [World.activeRemove]
  · simp [World.activeRemove]
  · have hperm : ({ S with active := l₁ ++ l₂, floating := [b] } : Shape).blocks.Perm
        (l₁ ++ b :: l₂ ++ S.reserved) := by
      simp only [Shape.blocks]
      refine List.perm_append_singleton b _ |>.trans ?_
      simp only [List.append_assoc, List.cons_append]
      exact List.perm_middle.symm
    exact hperm.nodup_iff.mpr hnodup
  · intro x hx
    have hox := h.owned x ((hmem x).mp hx)
    exact ⟨hox.control, hox.known, hox.heapBlock, hox.heapSlots, hox.heapSkip⟩

theorem Lists.local_activeRemove (h : Lists w c S) (hb : b ∈ S.active) :
    Local {c} w (w.activeRemove c b) := by
  obtain ⟨l₁, l₂, hl⟩ := List.append_of_mem hb
  have hseg := h.active.seg
  rw [hl] at hseg
  refine ⟨fun x _ hx => ?_, fun k _ hk => Function.update_of_ne hk _ _, fun _ _ _ => rfl, le_refl _,
    le_refl _⟩
  have hxS := h.notMem hx
  have hxa : x ∉ S.active := fun hm => hxS (Shape.mem_blocks.mpr (.inl hm))
  have hxb : x ≠ b := fun he => hxa (he ▸ hb)
  refine ⟨rfl, rfl, rfl, Function.update_of_ne hxb _ _, rfl, ?_, .rfl, rfl, rfl, rfl, rfl⟩
  exact Links.unlink_same hseg (by rw [← hl]; exact hxa)

/-! ## The reserved list -/

/-- A block that is on no list. -/
structure Clean (w : World α) (b : BlockId) : Prop where
  active : w.active b = false
  inAvailable : w.inAvailable b = false
  activeLinks : w.activeLinks.next b = none ∧ w.activeLinks.prev b = none
  availableLinks : w.availableLinks.next b = none ∧ w.availableLinks.prev b = none
  reservedNext : w.reservedNext b = none

/-- A block of the control that is on no list counts as floating. -/
theorem Lists.adopt (h : Lists w c S) (hf : S.floating = []) (hb : b ∉ S.blocks) (ho : Owned w c b)
    (hc : Clean w b) : Lists w c { S with floating := [b] } := by
  have hmem : ∀ x, x ∈ ({ S with floating := [b] } : Shape).blocks → x = b ∨ x ∈ S.blocks := by
    intro x
    simp only [Shape.mem_blocks, hf, List.mem_singleton, List.not_mem_nil]
    tauto
  have hna : b ∉ S.active := fun hm => hb (Shape.mem_blocks.mpr (.inl hm))
  have hnr : b ∉ S.reserved := fun hm => hb (Shape.mem_blocks.mpr (.inr (.inl hm)))
  have hnv : b ∉ S.available := fun hm => hna (h.available.sub b hm)
  refine ⟨⟨h.active.head, h.active.tail, h.active.seg, h.active.ordered, h.active.stamped, ?_, ?_⟩,
    ⟨h.available.head, h.available.seg, h.available.nodup, h.available.sub, ?_, ?_⟩,
    ⟨h.reserved.chain, ?_⟩, ?_, ?_⟩
  · intro x hx
    rcases hmem x hx with rfl | hx
    · simp [hc.active, hna]
    · exact h.active.flag x hx
  · intro x hx hnx
    rcases hmem x hx with rfl | hx
    · exact hc.activeLinks
    · exact h.active.clean x hx hnx
  · intro x hx
    rcases hmem x hx with rfl | hx
    · simp [hc.inAvailable, hnv]
    · exact h.available.flag x hx
  · intro x hx hnx
    rcases hmem x hx with rfl | hx
    · exact hc.availableLinks
    · exact h.available.clean x hx hnx
  · intro x hx hnx
    rcases hmem x hx with rfl | hx
    · exact hc.reservedNext
    · exact h.reserved.clean x hx hnx
  · have hnodup := h.nodup
    simp only [Shape.blocks, hf, List.append_nil] at hnodup ⊢
    rw [List.nodup_append]
    refine ⟨hnodup, List.nodup_singleton b, fun x hx y hy he => hb ?_⟩
    rw [← List.mem_singleton.mp hy, ← he]
    exact List.mem_append_left _ hx
  · intro x hx
    rcases hmem x hx with rfl | hx
    · exact ho
    · exact h.owned x hx

/-- A floating block goes to the front of the reserved list. -/
theorem Lists.reservedPush (h : Lists w c S) (hS : S.floating = [b]) :
    Lists (w.reservedPush c b) c { S with reserved := b :: S.reserved, floating := [] } := by
  have hmem : ∀ x, x ∈ ({ S with reserved := b :: S.reserved, floating := [] } : Shape).blocks →
      x ∈ S.blocks := by
    intro x
    simp only [Shape.mem_blocks, hS, List.mem_cons, List.not_mem_nil]
    tauto
  have hnodup := h.nodup
  simp only [Shape.blocks, hS] at hnodup
  have hb : b ∉ S.active ++ S.reserved := fun hm =>
    (List.nodup_append.mp hnodup).2.2 b hm b List.mem_cons_self rfl
  refine ⟨h.active.congr rfl hmem ?_ ?_ ?_ (fun _ _ => ⟨.rfl, rfl, rfl⟩),
    h.available.congr rfl h.available.sub hmem ?_ (fun _ _ => ⟨.rfl, rfl⟩), ⟨?_, ?_⟩, ?_, ?_⟩
  · simp [World.reservedPush]
  · simp [World.reservedPush]
  · simp [World.reservedPush]
  · simp [World.reservedPush]
  · refine ⟨by simp [World.reservedPush], ?_⟩
    simp only [World.reservedPush, Function.update_self]
    refine h.reserved.chain.congr fun x hx => Function.update_of_ne ?_ _ _
    rintro rfl
    exact hb (List.mem_append_right _ hx)
  · intro x hx hnx
    rw [List.mem_cons, not_or] at hnx
    simp only [World.reservedPush, Function.update_of_ne hnx.1]
    exact h.reserved.clean x (hmem x hx) hnx.2
  · have hperm : ({ S with reserved := b :: S.reserved, floating := [] } : Shape).blocks.Perm
        (S.active ++ S.reserved ++ [b]) := by
      simp only [Shape.blocks, List.append_nil]
      refine List.perm_middle.trans ?_
      exact (List.perm_append_singleton b _).symm
    exact hperm.nodup_iff.mpr hnodup
  · intro x hx
    have hox := h.owned x (hmem x hx)
    exact ⟨hox.control, hox.known, hox.heapBlock, hox.heapSlots, hox.heapSkip⟩

theorem local_reservedPush (hb : w.blockControl b = c) : Local {c} w (w.reservedPush c b) := by
  refine ⟨fun x _ hx => ?_, fun k _ hk => Function.update_of_ne hk _ _, fun _ _ _ => rfl, le_refl _,
    le_refl _⟩
  have hxb : x ≠ b := fun he => hx (by rw [he, hb]; rfl)
  exact ⟨rfl, rfl, rfl, rfl, rfl, .rfl, .rfl, Function.update_of_ne hxb _ _, rfl, rfl, rfl⟩

/-- A block is taken out of the reserved list, through the pointer to it. -/
theorem Lists.unreserve {l₁ l₂ : List BlockId} (h : Lists w c S) (hS : S.reserved = l₁ ++ b :: l₂)
    (hhead : (w'.control c).reservedHead = if l₁ = [] then w.reservedNext b else (w.control c).reservedHead)
    (hnext : w'.reservedNext = match l₁.getLast? with
      | none => w.reservedNext
      | some a => Function.update w.reservedNext a (w.reservedNext b))
    (hcontrol : (w'.control c).activeHead = (w.control c).activeHead ∧
      (w'.control c).activeTail = (w.control c).activeTail ∧
      (w'.control c).nextBlockOrder = (w.control c).nextBlockOrder ∧
      (w'.control c).availableHead = (w.control c).availableHead)
    (hsame : w'.activeLinks = w.activeLinks ∧ w'.order = w.order ∧ w'.active = w.active ∧
      w'.availableLinks = w.availableLinks ∧ w'.inAvailable = w.inAvailable)
    (howned : ∀ x ∈ S.blocks, x ≠ b → Owned w' c x) :
    Lists w' c { S with reserved := l₁ ++ l₂ } := by
  have hnodup : S.blocks.Nodup := h.nodup
  have hsublist : ({ S with reserved := l₁ ++ l₂ } : Shape).blocks.Sublist S.blocks := by
    simp only [Shape.blocks, hS]
    refine List.Sublist.append (List.Sublist.append (List.Sublist.refl _) ?_) (List.Sublist.refl _)
    exact List.Sublist.append_left (List.sublist_cons_self b l₂) l₁
  have hmem : ∀ x, x ∈ ({ S with reserved := l₁ ++ l₂ } : Shape).blocks → x ∈ S.blocks :=
    fun x hx => hsublist.subset hx
  have hres : (l₁ ++ b :: l₂).Nodup := by
    simp only [Shape.blocks, hS] at hnodup
    exact (List.nodup_append.mp (List.nodup_append.mp hnodup).1).2.1
  have hb : b ∉ ({ S with reserved := l₁ ++ l₂ } : Shape).blocks := by
    have hperm : S.blocks.Perm (b :: ({ S with reserved := l₁ ++ l₂ } : Shape).blocks) := by
      simp only [Shape.blocks, hS, List.append_assoc, List.cons_append]
      rw [← List.append_assoc, ← List.append_assoc]
      refine List.perm_middle.trans ?_
      simp
    exact (List.nodup_cons.mp (hperm.nodup_iff.mp hnodup)).1
  have hchain := h.reserved.chain
  rw [hS] at hchain
  refine ⟨h.active.congr rfl hmem hcontrol.1 hcontrol.2.1 hcontrol.2.2.1 ?_,
    h.available.congr rfl h.available.sub hmem hcontrol.2.2.2 ?_, ⟨?_, ?_⟩,
    hnodup.sublist hsublist, fun x hx => howned x (hmem x hx) fun he => hb (he ▸ hx)⟩
  · intro x _
    rw [hsame.1, hsame.2.1, hsame.2.2.1]
    exact ⟨.rfl, rfl, rfl⟩
  · intro x _
    rw [hsame.2.2.2.1, hsame.2.2.2.2]
    exact ⟨.rfl, rfl⟩
  · rcases List.eq_nil_or_concat l₁ with rfl | ⟨l, a, rfl⟩
    · rw [hhead, hnext]
      exact hchain.2
    · rw [List.concat_eq_append] at *
      rw [hhead, hnext]
      simp only [List.getLast?_append, List.getLast?_singleton, List.append_eq_nil_iff]
      rw [List.append_assoc] at hchain hres ⊢
      simpa using hchain.skip hres
  · intro x hx hnx
    have hxres : x ∉ S.reserved := by
      rw [hS]
      intro hm
      have hxb : x ≠ b := fun he => hb (he ▸ hx)
      exact hnx (by simpa [hxb] using hm)
    have hold := h.reserved.clean x (hmem x hx) hxres
    rw [hnext]
    cases hl : l₁.getLast? with
    | none => exact hold
    | some a =>
      have hxa : x ≠ a := fun he => hnx (List.mem_append_left _ (he ▸ List.mem_of_getLast? hl))
      simp only [Function.update_of_ne hxa]
      exact hold

end World

end CCForge.Hive
