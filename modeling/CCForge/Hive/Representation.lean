import Mathlib.Algebra.BigOperators.Group.List.Basic
import Mathlib.Algebra.Order.BigOperators.Group.List
import CCForge.Hive.BlockInvariant
import CCForge.Hive.Lists
import Mathlib.Algebra.GroupWithZero.Nat

/-!
# The representation of a hive

A control represents the sequence of the elements in its active blocks, block by
block and in index order within a block. A handle is the block and the slot of an
element.
-/

namespace CCForge.Hive

variable {α : Type}

abbrev Handle := BlockId × ℕ

namespace Block

/-- The element in a slot, with its index. -/
def elementAt (k : Block α) (i : ℕ) : Option (ℕ × α) :=
  match k.slots i with
  | .element v => some (i, v)
  | _ => none

/-- The elements of a block in index order. -/
def elements (k : Block α) : List (ℕ × α) := k.live.filterMap k.elementAt

/-- A block as the reserved list holds it. -/
structure Vacant (k : Block α) : Prop where
  liveCount : k.liveCount = 0
  highWater : k.highWater = 0
  freeHead : k.freeHead = none

variable {k k' : Block α} {fl : List ℕ} {i : ℕ} {v : α}

theorem Vacant.elements (h : k.Vacant) : k.elements = [] := by
  simp [Block.elements, Block.live, h.highWater]

theorem elementAt_eq (h : k.slots i = .element v) : k.elementAt i = some (i, v) := by
  simp [elementAt, h]

theorem elements_congr {l : List ℕ} (h : ∀ i ∈ l, k'.slots i = k.slots i) :
    l.filterMap k'.elementAt = l.filterMap k.elementAt := by
  refine List.filterMap_congr fun i hi => ?_
  simp [elementAt, h i hi]

/-- A list with one member singled out. -/
theorem split_of_filter {ι : Type} [DecidableEq ι] {l m : List ι} {a : ι} (hn : l.Nodup) (ha : a ∈ l)
    (h : l.filter (· ≠ a) = m) : ∃ l₁ l₂, l = l₁ ++ a :: l₂ ∧ m = l₁ ++ l₂ := by
  obtain ⟨l₁, l₂, rfl⟩ := List.append_of_mem ha
  rw [List.nodup_middle, List.nodup_cons] at hn
  refine ⟨l₁, l₂, rfl, ?_⟩
  rw [← h, List.filter_append, List.filter_cons_of_neg (by simp), ← List.filter_append,
    List.filter_eq_self]
  intro x hx
  have hxa : x ≠ a := fun he => hn.1 (he ▸ hx)
  simpa using hxa

theorem Inserted.elements_eq (h : Inserted k k' i v) :
    ∃ l₁ l₂, k.elements = l₁ ++ l₂ ∧ k'.elements = l₁ ++ (i, v) :: l₂ := by
  obtain ⟨m₁, m₂, hm', hm⟩ :=
    split_of_filter live_nodup ((h.live i).mpr (.inr rfl)) h.live_filter
  have hframe : ∀ j ∈ m₁ ++ m₂, k'.slots j = k.slots j := fun j hj =>
    h.frame j (by rw [hm]; exact hj)
  refine ⟨m₁.filterMap k.elementAt, m₂.filterMap k.elementAt, ?_, ?_⟩
  · rw [Block.elements, hm, List.filterMap_append]
  · rw [Block.elements, hm', List.filterMap_append,
      List.filterMap_cons_some (elementAt_eq h.element),
      elements_congr fun j hj => hframe j (List.mem_append_left m₂ hj),
      elements_congr fun j hj => hframe j (List.mem_append_right m₁ hj)]

theorem Erased.elements_eq (h : Erased k k' i) (hi : i ∈ k.live) (hv : k.slots i = .element v) :
    ∃ l₁ l₂, k.elements = l₁ ++ (i, v) :: l₂ ∧ k'.elements = l₁ ++ l₂ := by
  obtain ⟨m₁, m₂, hm, hm'⟩ := split_of_filter live_nodup hi h.live_eq.symm
  have hframe : ∀ j ∈ m₁ ++ m₂, k'.slots j = k.slots j := fun j hj =>
    h.frame j (by rw [hm']; exact hj)
  refine ⟨m₁.filterMap k.elementAt, m₂.filterMap k.elementAt, ?_, ?_⟩
  · rw [Block.elements, hm, List.filterMap_append, List.filterMap_cons_some (elementAt_eq hv)]
  · rw [Block.elements, hm', List.filterMap_append,
      elements_congr fun j hj => hframe j (List.mem_append_left m₂ hj),
      elements_congr fun j hj => hframe j (List.mem_append_right m₁ hj)]

/-- Every live slot holds an element. -/
theorem Ok.elements_fst (h : k.Ok fl) : k.elements.map Prod.fst = k.live := by
  rw [Block.elements, List.map_filterMap]
  have hsome : ∀ i ∈ k.live, (k.elementAt i).map Prod.fst = some i := by
    intro i hi
    obtain ⟨hlt, hs⟩ := mem_live.mp hi
    obtain ⟨v, hv⟩ := h.elements i hlt hs
    simp [elementAt_eq hv]
  rw [List.filterMap_congr hsome, List.filterMap_some]

theorem Ok.elements_length (h : k.Ok fl) : k.elements.length = k.liveCount := by
  rw [h.count, ← h.elements_fst, List.length_map]

end Block

namespace World

variable {w w' : World α} {c : ControlId} {S S' : Shape} {b : BlockId} {h : HiveId}

/-- The elements of the blocks in `l`. -/
def elementsOf (w : World α) (l : List BlockId) : List (Handle × α) :=
  l.flatMap fun b => (w.block b).elements.map fun e => ((b, e.1), e.2)

/-- What the blocks of a control hold. -/
structure Filled (w : World α) (S : Shape) : Prop where
  active : ∀ b ∈ S.active, (∃ fl, (w.block b).Ok fl) ∧ (w.block b).liveCount ≠ 0
  available : ∀ b ∈ S.active, b ∈ S.available ↔ (w.block b).Available
  reserved : ∀ b ∈ S.reserved, (w.block b).Vacant
  capacity : ∀ b ∈ S.blocks, 0 < (w.block b).capacity ∧ (w.block b).capacity ≤ 65535

def totalSize (w : World α) (l : List BlockId) : ℕ := (l.map fun b => (w.block b).liveCount).sum

def totalCapacity (w : World α) (l : List BlockId) : ℕ := (l.map fun b => (w.block b).capacity).sum

/-- The control `c` is in order and has the blocks of `S`. -/
structure Represents (w : World α) (c : ControlId) (S : Shape) : Prop where
  lists : Lists w c S
  filled : Filled w S
  size : (w.control c).size = w.totalSize S.active
  capacity : (w.control c).capacity = w.totalCapacity S.blocks

/-- The hive `h` is in order. -/
structure HiveOk (w : World α) (h : HiveId) (c : ControlId) (S : Shape) : Prop where
  represents : Represents w c S
  settled : S.floating = []
  owner : (w.control c).owner = h
  known : c < w.nextControl
  heap : w.heap (.control c) = true

/-- Every hive is in order. -/
def Inv (w : World α) : Prop := ∀ h c, (w.container h).control = some c → ∃ S, HiveOk w h c S

theorem totalSize_congr {l : List BlockId} (hs : ∀ b ∈ l, w'.block b = w.block b) :
    w'.totalSize l = w.totalSize l := by
  unfold totalSize
  rw [List.map_congr_left fun b hb => by rw [hs b hb]]

theorem totalCapacity_congr {l : List BlockId} (hs : ∀ b ∈ l, w'.block b = w.block b) :
    w'.totalCapacity l = w.totalCapacity l := by
  unfold totalCapacity
  rw [List.map_congr_left fun b hb => by rw [hs b hb]]

theorem elementsOf_congr {l : List BlockId} (hs : ∀ b ∈ l, w'.block b = w.block b) :
    w'.elementsOf l = w.elementsOf l := by
  unfold elementsOf
  rw [List.flatMap_congr fun b hb => by rw [hs b hb]]

theorem elementsOf_append (l₁ l₂ : List BlockId) :
    w.elementsOf (l₁ ++ l₂) = w.elementsOf l₁ ++ w.elementsOf l₂ := List.flatMap_append

theorem totalSize_append (l₁ l₂ : List BlockId) :
    w.totalSize (l₁ ++ l₂) = w.totalSize l₁ + w.totalSize l₂ := by
  simp [totalSize]

theorem totalCapacity_append (l₁ l₂ : List BlockId) :
    w.totalCapacity (l₁ ++ l₂) = w.totalCapacity l₁ + w.totalCapacity l₂ := by
  simp [totalCapacity]

theorem totalCapacity_perm {l l' : List BlockId} (hp : l.Perm l') :
    w.totalCapacity l = w.totalCapacity l' := (hp.map _).sum_eq

/-- A list of blocks around the only one of them that has changed. -/
theorem split_changed {l : List BlockId} (hn : l.Nodup) (hb : b ∈ l)
    (hs : ∀ x, x ≠ b → w'.block x = w.block x) :
    ∃ l₁ l₂, l = l₁ ++ b :: l₂ ∧ (∀ x ∈ l₁, w'.block x = w.block x) ∧
      ∀ x ∈ l₂, w'.block x = w.block x := by
  obtain ⟨l₁, l₂, rfl⟩ := List.append_of_mem hb
  rw [List.nodup_middle, List.nodup_cons] at hn
  refine ⟨l₁, l₂, rfl, fun x hx => hs x ?_, fun x hx => hs x ?_⟩
  · exact fun he => hn.1 (List.mem_append_left _ (he ▸ hx))
  · exact fun he => hn.1 (List.mem_append_right _ (he ▸ hx))

theorem totalSize_changed {l : List BlockId} (hn : l.Nodup) (hb : b ∈ l)
    (hs : ∀ x, x ≠ b → w'.block x = w.block x) :
    w'.totalSize l + (w.block b).liveCount = w.totalSize l + (w'.block b).liveCount := by
  obtain ⟨l₁, l₂, rfl, h₁, h₂⟩ := split_changed hn hb hs
  simp only [totalSize, List.map_append, List.map_cons, List.sum_append, List.sum_cons]
  have e₁ := totalSize_congr h₁
  have e₂ := totalSize_congr h₂
  simp only [totalSize] at e₁ e₂
  omega

theorem totalCapacity_changed {l : List BlockId}
    (hs : ∀ x ∈ l, (w'.block x).capacity = (w.block x).capacity) :
    w'.totalCapacity l = w.totalCapacity l := by
  unfold totalCapacity
  rw [List.map_congr_left hs]

/-- The elements of a block that has changed stand between those of the others. -/
theorem elementsOf_changed {l : List BlockId} {e₁ e₂ x y : List (ℕ × α)} (hn : l.Nodup) (hb : b ∈ l)
    (hs : ∀ z, z ≠ b → w'.block z = w.block z) (he : (w.block b).elements = e₁ ++ (x ++ e₂))
    (he' : (w'.block b).elements = e₁ ++ (y ++ e₂)) :
    ∃ l₁ l₂, w.elementsOf l = l₁ ++ (x.map (fun e => ((b, e.1), e.2)) ++ l₂) ∧
      w'.elementsOf l = l₁ ++ (y.map (fun e => ((b, e.1), e.2)) ++ l₂) := by
  obtain ⟨m₁, m₂, rfl, h₁, h₂⟩ := split_changed hn hb hs
  refine ⟨w.elementsOf m₁ ++ e₁.map (fun e => ((b, e.1), e.2)),
    e₂.map (fun e => ((b, e.1), e.2)) ++ w.elementsOf m₂, ?_, ?_⟩
  · rw [elementsOf_append]
    simp [elementsOf, he]
  · rw [elementsOf_append, elementsOf_congr h₁]
    have hm₂ := elementsOf_congr h₂
    simp only [elementsOf] at hm₂ ⊢
    simp [he', hm₂]

theorem elementsOf_inserted {l : List BlockId} {i : ℕ} {v : α} (hn : l.Nodup) (hb : b ∈ l)
    (hs : ∀ x, x ≠ b → w'.block x = w.block x) (hi : Block.Inserted (w.block b) (w'.block b) i v) :
    ∃ l₁ l₂, w.elementsOf l = l₁ ++ l₂ ∧ w'.elementsOf l = l₁ ++ ((b, i), v) :: l₂ := by
  obtain ⟨e₁, e₂, he, he'⟩ := hi.elements_eq
  exact elementsOf_changed (x := []) (y := [(i, v)]) hn hb hs he he'

theorem elementsOf_erased {l : List BlockId} {i : ℕ} {v : α} (hn : l.Nodup) (hb : b ∈ l)
    (hs : ∀ x, x ≠ b → w'.block x = w.block x) (hi : Block.Erased (w.block b) (w'.block b) i)
    (hlive : i ∈ (w.block b).live) (hv : (w.block b).slots i = .element v) :
    ∃ l₁ l₂, w.elementsOf l = l₁ ++ ((b, i), v) :: l₂ ∧ w'.elementsOf l = l₁ ++ l₂ := by
  obtain ⟨e₁, e₂, he, he'⟩ := hi.elements_eq hlive hv
  exact elementsOf_changed (x := [(i, v)]) (y := []) hn hb hs he he'

theorem Filled.congr (hf : Filled w S) (hs : ∀ b ∈ S.blocks, w'.block b = w.block b) :
    Filled w' S := by
  have hin : ∀ b ∈ S.active, w'.block b = w.block b := fun b hb =>
    hs b (Shape.mem_blocks.mpr (.inl hb))
  refine ⟨fun b hb => ?_, fun b hb => ?_, fun b hb => ?_, fun b hb => ?_⟩
  · rw [hin b hb]
    exact hf.active b hb
  · rw [hin b hb]
    exact hf.available b hb
  · rw [hs b (Shape.mem_blocks.mpr (.inr (.inl hb)))]
    exact hf.reserved b hb
  · rw [hs b hb]
    exact hf.capacity b hb

theorem Lists.active_nodup (hL : Lists w c S) : S.active.Nodup := by
  have hn := hL.nodup
  simp only [Shape.blocks] at hn
  exact (List.nodup_append.mp (List.nodup_append.mp hn).1).1

theorem Lists.notMem_reserved (hL : Lists w c S) (hb : b ∈ S.active) : b ∉ S.reserved := by
  have hn := hL.nodup
  simp only [Shape.blocks] at hn
  exact fun hm => (List.nodup_append.mp (List.nodup_append.mp hn).1).2.2 b hb b hm rfl

/-- One active block has changed, and the available list is right for it. -/
theorem Represents.change (hr : Represents w c S) (hb : b ∈ S.active) (hL : Lists w' c S')
    (hact : S'.active = S.active) (hres : S'.reserved = S.reserved) (hfl : S'.floating = S.floating)
    (hs : ∀ x, x ≠ b → w'.block x = w.block x) (hok : ∃ fl, (w'.block b).Ok fl)
    (hlc : (w'.block b).liveCount ≠ 0) (hcap : (w'.block b).capacity = (w.block b).capacity)
    (hav : ∀ x, x ≠ b → (x ∈ S'.available ↔ x ∈ S.available))
    (havb : b ∈ S'.available ↔ (w'.block b).Available)
    (hsize : (w'.control c).size + (w.block b).liveCount = (w.control c).size + (w'.block b).liveCount)
    (hccap : (w'.control c).capacity = (w.control c).capacity) : Represents w' c S' := by
  have hblocks : S'.blocks = S.blocks := by simp only [Shape.blocks, hact, hres, hfl]
  have hcaps : ∀ x, (w'.block x).capacity = (w.block x).capacity := by
    intro x
    by_cases hx : x = b
    · rw [hx, hcap]
    · rw [hs x hx]
  refine ⟨hL, ⟨fun x hx => ?_, fun x hx => ?_, fun x hx => ?_, fun x hx => ?_⟩, ?_, ?_⟩
  · rw [hact] at hx
    by_cases hxb : x = b
    · rw [hxb]
      exact ⟨hok, hlc⟩
    · rw [hs x hxb]
      exact hr.filled.active x hx
  · rw [hact] at hx
    by_cases hxb : x = b
    · rw [hxb]
      exact havb
    · rw [hav x hxb, hs x hxb]
      exact hr.filled.available x hx
  · rw [hres] at hx
    have hxb : x ≠ b := fun he => hr.lists.notMem_reserved hb (he ▸ hx)
    rw [hs x hxb]
    exact hr.filled.reserved x hx
  · rw [hblocks] at hx
    rw [hcaps x]
    exact hr.filled.capacity x hx
  · have hsum := totalSize_changed hr.lists.active_nodup hb hs
    have hold := hr.size
    rw [hact]
    omega
  · rw [hccap, hr.capacity, hblocks, totalCapacity_changed fun x _ => hcaps x]

theorem Represents.of_same (hr : Represents w c S) (hs : SameLists w w' c)
    (hblock : w'.block = w.block) (hsize : (w'.control c).size = (w.control c).size)
    (hcap : (w'.control c).capacity = (w.control c).capacity) : Represents w' c S := by
  refine ⟨hr.lists.of_same hs, hr.filled.congr fun _ _ => by rw [hblock], ?_, ?_⟩
  · rw [hsize, hr.size, totalSize_congr fun _ _ => by rw [hblock]]
  · rw [hcap, hr.capacity, totalCapacity_congr fun _ _ => by rw [hblock]]

theorem Represents.modifyContainer (hr : Represents w c S) (f : Container → Container) :
    Represents (w.modifyContainer h f) c S :=
  hr.of_same ⟨rfl, rfl, rfl, rfl, rfl, rfl, rfl, rfl, rfl, rfl, rfl, rfl, rfl, rfl⟩ rfl rfl rfl

variable {C : Set ControlId}

/-- A hive whose control is not touched stays in order. -/
theorem HiveOk.of_local (hh : HiveOk w h c S) (hl : Local C w w') (hc : c ∉ C) :
    HiveOk w' h c S := by
  have hrep := hh.represents
  have hcontrol := hl.control c hh.known hc
  have hblock : ∀ b ∈ S.blocks, w'.block b = w.block b := fun b hb => by
    have hown := hrep.lists.owned b hb
    refine (hl.block b hown.known ?_).block
    rw [hown.control]
    exact hc
  refine ⟨⟨hrep.lists.of_local hl hh.known hc, hrep.filled.congr hblock, ?_, ?_⟩, hh.settled, ?_,
    lt_of_lt_of_le hh.known hl.nextControl, ?_⟩
  · rw [hcontrol, hrep.size, totalSize_congr fun b hb => hblock b (Shape.mem_blocks.mpr (.inl hb))]
  · rw [hcontrol, hrep.capacity, totalCapacity_congr hblock]
  · rw [hcontrol]
    exact hh.owner
  · rw [hl.heap c hh.known hc]
    exact hh.heap

/-! ## The sequence of a hive -/

/-- The blocks from `b?` on, in the order of the active list. -/
def walk (next : BlockId → Option BlockId) : ℕ → Option BlockId → List BlockId
  | 0, _ => []
  | _ + 1, none => []
  | fuel + 1, some b => b :: walk next fuel (next b)

theorem walk_eq {next : BlockId → Option BlockId} {start : Option BlockId} {l : List BlockId}
    (hc : Chain next start l) : ∀ {fuel}, l.length ≤ fuel → walk next fuel start = l := by
  induction l generalizing start with
  | nil =>
    intro fuel _
    rw [show start = none from hc]
    cases fuel <;> rfl
  | cons b l ih =>
    intro fuel hf
    obtain ⟨rfl, hc⟩ := hc
    cases fuel with
    | zero => simp at hf
    | succ n =>
      rw [walk, ih hc (by simpa using hf)]

/-- The active blocks of a hive. -/
def activeBlocks (w : World α) (h : HiveId) : List BlockId :=
  match (w.container h).control with
  | none => []
  | some c => walk w.activeLinks.next w.nextBlock (w.control c).activeHead

/-- The elements of a hive with their handles, in traversal order. -/
def elements (w : World α) (h : HiveId) : List (Handle × α) := w.elementsOf (w.activeBlocks h)

theorem Lists.length_le (hL : Lists w c S) : S.blocks.length ≤ w.nextBlock := by
  have hsub : S.blocks ⊆ List.range w.nextBlock := fun b hb =>
    List.mem_range.mpr (hL.owned b hb).known
  have hle := (List.subperm_of_subset hL.nodup hsub).length_le
  simpa using hle

theorem Lists.active_chain (hL : Lists w c S) :
    Chain w.activeLinks.next (w.control c).activeHead S.active := by
  rw [hL.active.head]
  exact hL.active.seg.chain

theorem Lists.active_length_le (hL : Lists w c S) : S.active.length ≤ w.nextBlock := by
  have hle := hL.length_le
  simp only [Shape.blocks, List.length_append] at hle
  omega

theorem Lists.reserved_length_le (hL : Lists w c S) : S.reserved.length ≤ w.nextBlock := by
  have hle := hL.length_le
  simp only [Shape.blocks, List.length_append] at hle
  omega

theorem HiveOk.activeBlocks (hh : HiveOk w h c S) (hc : (w.container h).control = some c) :
    w.activeBlocks h = S.active := by
  unfold World.activeBlocks
  rw [hc]
  exact walk_eq hh.represents.lists.active_chain hh.represents.lists.active_length_le

theorem HiveOk.elements (hh : HiveOk w h c S) (hc : (w.container h).control = some c) :
    w.elements h = w.elementsOf S.active := by
  rw [World.elements, hh.activeBlocks hc]

theorem elements_of_none (hc : (w.container h).control = none) : w.elements h = [] := by
  simp [World.elements, World.activeBlocks, hc, elementsOf]

theorem elementsOf_length (hf : ∀ b ∈ S.active, (∃ fl, (w.block b).Ok fl)) :
    (w.elementsOf S.active).length = w.totalSize S.active := by
  unfold elementsOf totalSize
  rw [List.length_flatMap]
  congr 1
  refine List.map_congr_left fun b hb => ?_
  obtain ⟨fl, hok⟩ := hf b hb
  rw [List.length_map, hok.elements_length]

/-- `size()` counts the elements. -/
theorem Inv.size_eq (hi : Inv w) (h : HiveId) : w.size h = (w.elements h).length := by
  unfold World.size
  cases hc : (w.container h).control with
  | none => simp [elements_of_none hc]
  | some c =>
    obtain ⟨S, hh⟩ := hi h c hc
    simp only [hh.elements hc, hh.represents.size]
    exact (elementsOf_length fun b hb => (hh.represents.filled.active b hb).1).symm

theorem Inv.elements_of_size_lt_two (hi : Inv w) (hs : w.size h < 2) :
    w.elements h = [] ∨ ∃ e, w.elements h = [e] := by
  rw [hi.size_eq h] at hs
  obtain hzero | hone : (w.elements h).length = 0 ∨ (w.elements h).length = 1 := by omega
  · exact .inl (List.length_eq_zero_iff.mp hzero)
  · exact .inr (List.length_eq_one_iff.mp hone)

/-! ## From one hive to all of them -/

theorem HiveOk.unique {h' : HiveId} {S' : Shape} (hh : HiveOk w h c S) (hh' : HiveOk w h' c S') :
    h' = h := hh'.owner.symm.trans hh.owner

/-- The operation leaves every hive but `h` alone, and all hives in order. -/
structure OnlyTouches (w w' : World α) (h : HiveId) : Prop where
  inv : Inv w'
  container : ∀ x, x ≠ h → w'.container x = w.container x
  elements : ∀ x, x ≠ h → w'.elements x = w.elements x

theorem HiveOk.elements_of_local (hh : HiveOk w h c S) (hc : (w.container h).control = some c)
    (hl : Local C w w') (hn : c ∉ C) (hc' : (w'.container h).control = some c) :
    w'.elements h = w.elements h := by
  rw [hh.elements hc, (hh.of_local hl hn).elements hc']
  refine elementsOf_congr fun b hb => ?_
  have hown := hh.represents.lists.owned b (Shape.mem_blocks.mpr (.inl hb))
  refine (hl.block b hown.known ?_).block
  rw [hown.control]
  exact hn

/-- A local change that leaves the hive in order. -/
theorem Inv.onlyTouches (hi : Inv w) (hl : Local {c} w w')
    (hcont : ∀ x, x ≠ h → w'.container x = w.container x)
    (hmine : ∀ x, (w.container x).control = some c → x = h)
    (hh : ∀ k, (w'.container h).control = some k → ∃ S, HiveOk w' h k S) : OnlyTouches w w' h := by
  refine ⟨fun x k hk => ?_, hcont, fun x hx => ?_⟩
  · by_cases hx : x = h
    · subst hx
      exact hh k hk
    · rw [hcont x hx] at hk
      obtain ⟨S, hS⟩ := hi x k hk
      exact ⟨S, hS.of_local hl fun he => hx (hmine x (by rw [← show k = c from he]; exact hk))⟩
  · cases hk : (w.container x).control with
    | none => rw [elements_of_none hk, elements_of_none (by rw [hcont x hx]; exact hk)]
    | some k =>
      obtain ⟨S, hS⟩ := hi x k hk
      refine hS.elements_of_local hk hl ?_ (by rw [hcont x hx]; exact hk)
      exact fun he => hx (hmine x (by rw [← show k = c from he]; exact hk))

/-- An operation on the control `c` of the hive `h` that no other hive notices. -/
structure Keeps (w w' : World α) (h : HiveId) (c : ControlId) : Prop where
  loc : Local {c} w w'
  owner : (w'.control c).owner = (w.control c).owner
  heap : w'.heap (.control c) = w.heap (.control c)
  control : ∀ x, (w'.container x).control = (w.container x).control
  container : ∀ x, x ≠ h → w'.container x = w.container x

theorem Keeps.trans {w'' : World α} (hk : Keeps w w' h c) (hk' : Keeps w' w'' h c) :
    Keeps w w'' h c :=
  ⟨hk.loc.trans hk'.loc, hk'.owner.trans hk.owner, hk'.heap.trans hk.heap,
    fun x => (hk'.control x).trans (hk.control x),
    fun x hx => (hk'.container x hx).trans (hk.container x hx)⟩

theorem Keeps.refl : Keeps w w h c := ⟨.refl, rfl, rfl, fun _ => rfl, fun _ _ => rfl⟩

theorem keeps_modifyBlock (hb : w.blockControl b = c) (f : Block α → Block α) :
    Keeps w (w.modifyBlock b f) h c :=
  ⟨local_modifyBlock hb f, rfl, rfl, fun _ => rfl, fun _ _ => rfl⟩

theorem keeps_modifyControl {f : Control → Control} (hf : (f (w.control c)).owner = (w.control c).owner) :
    Keeps w (w.modifyControl c f) h c :=
  ⟨local_modifyControl (Set.mem_singleton c) f, by rw [modifyControl_self]; exact hf, rfl,
    fun _ => rfl, fun _ _ => rfl⟩

theorem keeps_modifyContainer {f : Container → Container}
    (hf : (f (w.container h)).control = (w.container h).control) :
    Keeps w (w.modifyContainer h f) h c := by
  refine ⟨local_modifyContainer h f, rfl, rfl, fun x => ?_, fun x hx => Function.update_of_ne hx _ _⟩
  by_cases hx : x = h
  · subst hx
    simp only [World.modifyContainer, Function.update_self]
    exact hf
  · simp [World.modifyContainer, hx]

theorem keeps_touchEnd : Keeps w (w.touchEnd h) h c := keeps_modifyContainer rfl

theorem Lists.keeps_availableAdd (hL : Lists w c S) (hb : b ∈ S.blocks) :
    Keeps w (w.availableAdd c b) h c :=
  ⟨hL.local_availableAdd hb, by simp [World.availableAdd], rfl, fun _ => rfl, fun _ _ => rfl⟩

theorem Lists.keeps_availableRemove (hL : Lists w c S) (hb : b ∈ S.blocks) :
    Keeps w (w.availableRemove c b) h c := by
  refine ⟨hL.local_availableRemove hb, availableRemove_control.2.2, ?_, ?_, ?_⟩ <;>
    unfold World.availableRemove <;> split <;> first | rfl | exact fun _ => rfl | exact fun _ _ => rfl

theorem Lists.keeps_activeAppend (hL : Lists w c S) (hb : b ∈ S.blocks) :
    Keeps w (w.activeAppend c b) h c :=
  ⟨hL.local_activeAppend hb, by simp [World.activeAppend], rfl, fun _ => rfl, fun _ _ => rfl⟩

theorem Lists.keeps_activeRemove (hL : Lists w c S) (hb : b ∈ S.active) :
    Keeps w (w.activeRemove c b) h c :=
  ⟨hL.local_activeRemove hb, by simp [World.activeRemove], rfl, fun _ => rfl, fun _ _ => rfl⟩

theorem keeps_reservedPush (hb : w.blockControl b = c) : Keeps w (w.reservedPush c b) h c :=
  ⟨local_reservedPush hb, by simp [World.reservedPush], rfl, fun _ => rfl, fun _ _ => rfl⟩

theorem HiveOk.of_keeps (hh : HiveOk w h c S) (hk : Keeps w w' h c) (hr : Represents w' c S')
    (hf : S'.floating = []) : HiveOk w' h c S' :=
  ⟨hr, hf, hk.owner.trans hh.owner, lt_of_lt_of_le hh.known hk.loc.nextControl, hk.heap.trans hh.heap⟩

/-- An operation on one hive, seen from all of them. -/
theorem Inv.of_keeps (hi : Inv w) (hc : (w.container h).control = some c) (hk : Keeps w w' h c)
    (hh : HiveOk w' h c S') :
    OnlyTouches w w' h ∧ w'.elements h = w'.elementsOf S'.active := by
  obtain ⟨S, hS⟩ := hi h c hc
  refine ⟨hi.onlyTouches hk.loc hk.container (fun x hx => ?_) fun k hk' => ?_,
    hh.elements ((hk.control h).trans hc)⟩
  · obtain ⟨T, hT⟩ := hi x c hx
    exact hS.unique hT
  · rw [hk.control h, hc] at hk'
    cases hk'
    exact ⟨S', hh⟩

/-- Nothing that existed before has changed. -/
structure Silent (w w' : World α) : Prop where
  loc : Local ∅ w w'
  container : w'.container = w.container

theorem Silent.refl : Silent w w := ⟨.refl, rfl⟩

theorem Silent.trans {w'' : World α} (h : Silent w w') (h' : Silent w' w'') : Silent w w'' :=
  ⟨h.loc.trans h'.loc, h'.container.trans h.container⟩

theorem Silent.inv (hs : Silent w w') (hi : Inv w) : Inv w' := by
  intro h c hc
  rw [hs.container] at hc
  obtain ⟨S, hS⟩ := hi h c hc
  exact ⟨S, hS.of_local hs.loc fun he => he⟩

theorem Silent.elements (hs : Silent w w') (hi : Inv w) (h : HiveId) :
    w'.elements h = w.elements h := by
  cases hc : (w.container h).control with
  | none => rw [elements_of_none hc, elements_of_none (by rw [hs.container]; exact hc)]
  | some c =>
    obtain ⟨S, hS⟩ := hi h c hc
    exact hS.elements_of_local hc hs.loc (fun he => he) (by rw [hs.container]; exact hc)

theorem Silent.onlyTouches (hs : Silent w w') (hi : Inv w) (h : HiveId) : OnlyTouches w w' h :=
  ⟨hs.inv hi, fun _ _ => by rw [hs.container], fun x _ => hs.elements hi x⟩

end World

end CCForge.Hive
