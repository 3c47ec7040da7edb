import CCForge.Hive.Traversal

/-!
# Finding an element by its address

`get_iterator` divides the distance from the slots of each active block and checks the slot that
it proposes.
-/

namespace CCForge.Hive

open World

variable {α : Type} {w : World α} {h : HiveId} {b : BlockId} {target : ℕ}

/-- The flat address space: where the slots of each block begin, and the layout of `slot_type`.
No range wraps, so that the addresses are exact. -/
structure SlotLayout where
  slots : BlockId → ℕ
  slotSize : ℕ
  storageOffset : ℕ
  offset_lt : storageOffset < slotSize

namespace SlotLayout

/-- `raw_element`. -/
def rawElement (m : SlotLayout) (b : BlockId) (index : ℕ) : ℕ :=
  m.slots b + index * m.slotSize + m.storageOffset

/-- The slot arrays of two blocks have no address in common. -/
def Apart (m : SlotLayout) (w : World α) (b b' : BlockId) : Prop :=
  m.slots b + (w.block b).capacity * m.slotSize ≤ m.slots b' ∨
    m.slots b' + (w.block b').capacity * m.slotSize ≤ m.slots b

/-- The body of the loop of `get_iterator`: the index in the block, if the address is that of one of
its elements. -/
def findIn (m : SlotLayout) (w : World α) (target : ℕ) (b : BlockId) : Option ℕ :=
  let base := m.slots b
  if target < base then none
  else
    let displacement := target - base
    if displacement % m.slotSize ≠ m.storageOffset then none
    else
      let candidate := displacement / m.slotSize
      if candidate ≥ (w.block b).highWater then none
      else if (w.block b).skip candidate = 0 ∧ m.rawElement b candidate = target then some candidate
      else none

/-- The loop of `get_iterator`. -/
def findFrom (m : SlotLayout) (w : World α) (target : ℕ) : ℕ → Option BlockId → Option Iterator
  | 0, _ => none
  | _ + 1, none => none
  | fuel + 1, some b =>
    match m.findIn w target b with
    | some index => some (.at b index)
    | none => m.findFrom w target fuel (w.activeLinks.next b)

end SlotLayout

namespace World

/-- The `const` overload of `get_iterator`. -/
def getIteratorConst (w : World α) (m : SlotLayout) (h : HiveId) (target : ℕ) : Iterator :=
  match (w.container h).control with
  | none => w.last h
  | some c => (m.findFrom w target w.nextBlock (w.control c).activeHead).getD (w.last h)

def getIterator (w : World α) (m : SlotLayout) (h : HiveId) (target : ℕ) : Iterator :=
  let found := w.getIteratorConst m h target
  match found.block with
  | none => w.last h
  | some b => .at b found.index

end World

namespace SlotLayout

variable {m : SlotLayout} {i : ℕ}

theorem rawElement_sub (m : SlotLayout) (b : BlockId) (i : ℕ) :
    m.rawElement b i - m.slots b = m.storageOffset + m.slotSize * i := by
  unfold rawElement
  rw [Nat.mul_comm i]
  omega

/-- A block finds the addresses of its live slots only, each at its index. -/
theorem findIn_eq_some (m : SlotLayout) :
    m.findIn w target b = some i ↔ i ∈ (w.block b).live ∧ m.rawElement b i = target := by
  have hpos : 0 < m.slotSize := Nat.zero_lt_of_lt m.offset_lt
  rw [Block.mem_live]
  constructor
  · intro hfind
    unfold findIn at hfind
    dsimp only at hfind
    split_ifs at hfind with h1 h2 h3 h4
    cases hfind
    exact ⟨⟨Nat.lt_of_not_le h3, h4.1⟩, h4.2⟩
  · rintro ⟨⟨hlt, hlive⟩, rfl⟩
    have hdiv : (m.rawElement b i - m.slots b) / m.slotSize = i := by
      rw [rawElement_sub, Nat.add_mul_div_left _ _ hpos, Nat.div_eq_of_lt m.offset_lt, Nat.zero_add]
    have hmod : (m.rawElement b i - m.slots b) % m.slotSize = m.storageOffset := by
      rw [rawElement_sub, Nat.add_mul_mod_self_left, Nat.mod_eq_of_lt m.offset_lt]
    have hbase : ¬m.rawElement b i < m.slots b := by
      unfold rawElement
      omega
    unfold findIn
    dsimp only
    rw [if_neg hbase, hmod, hdiv, if_neg (not_not.mpr rfl), if_neg (Nat.not_le_of_lt hlt),
      if_pos ⟨hlive, rfl⟩]

/-- The loop finds the element in the one block that has the address. -/
theorem findFrom_eq {fuel : ℕ} {start : Option BlockId} {l : List BlockId}
    (hl : Chain w.activeLinks.next start l) (hf : l.length ≤ fuel) (hb : b ∈ l)
    (hi : m.findIn w target b = some i)
    (honly : ∀ b' ∈ l, b' ≠ b → m.findIn w target b' = none) :
    m.findFrom w target fuel start = some (.at b i) := by
  induction l generalizing start fuel with
  | nil => cases hb
  | cons a l ih =>
    obtain ⟨rfl, hl⟩ := hl
    cases fuel with
    | zero => simp at hf
    | succ fuel =>
      rw [findFrom]
      by_cases hab : a = b
      · subst hab
        rw [hi]
      · rw [honly a List.mem_cons_self hab]
        exact ih hl (Nat.le_of_succ_le_succ hf) ((List.mem_cons.mp hb).resolve_left (Ne.symm hab))
          fun b' hb' => honly b' (List.mem_cons_of_mem a hb')

theorem findFrom_none {fuel : ℕ} {start : Option BlockId} {l : List BlockId}
    (hl : Chain w.activeLinks.next start l) (hnone : ∀ b ∈ l, m.findIn w target b = none) :
    m.findFrom w target fuel start = none := by
  induction l generalizing start fuel with
  | nil =>
    rw [show start = none from hl]
    cases fuel <;> rfl
  | cons a l ih =>
    obtain ⟨rfl, hl⟩ := hl
    cases fuel with
    | zero => rfl
    | succ fuel =>
      rw [findFrom, hnone a List.mem_cons_self]
      exact ih hl fun b hb => hnone b (List.mem_cons_of_mem a hb)

/-- An element lies in the slots of its block. -/
theorem rawElement_bounds (m : SlotLayout) (hi : i < (w.block b).capacity) :
    m.slots b ≤ m.rawElement b i ∧
      m.rawElement b i < m.slots b + (w.block b).capacity * m.slotSize := by
  have hoffset := m.offset_lt
  have hmul : (i + 1) * m.slotSize ≤ (w.block b).capacity * m.slotSize :=
    Nat.mul_le_mul_right m.slotSize hi
  rw [Nat.succ_mul] at hmul
  unfold rawElement
  omega

end SlotLayout

/-- `get_iterator` finds each live element at its address, and nothing at any other address. -/
theorem World.Inv.getIterator_exact (hi : Inv w) (h : HiveId) (m : SlotLayout)
    (hapart : (w.activeBlocks h).Pairwise (m.Apart w)) :
    (∀ p ∈ w.positions h, w.getIteratorConst m h (m.rawElement p.1 p.2) = iteratorAt p) ∧
      ∀ target, (∀ p ∈ w.positions h, m.rawElement p.1 p.2 ≠ target) →
        w.getIteratorConst m h target = w.last h := by
  cases hc : (w.container h).control with
  | none =>
    have hnone : ∀ target, w.getIteratorConst m h target = w.last h := by
      intro target
      unfold getIteratorConst
      rw [hc]
    refine ⟨fun p hp => ?_, fun target _ => hnone target⟩
    simp [positions, activeBlocks, hc, slotsOf] at hp
  | some c =>
    obtain ⟨S, hS⟩ := hi h c hc
    have hL := hS.represents.lists
    rw [hS.activeBlocks hc] at hapart
    have hfind : ∀ target, w.getIteratorConst m h target =
        (m.findFrom w target w.nextBlock (w.control c).activeHead).getD (w.last h) := by
      intro target
      unfold getIteratorConst
      rw [hc]
    have hmem : ∀ p : Handle, p ∈ w.positions h ↔ p.1 ∈ S.active ∧ p.2 ∈ (w.block p.1).live := by
      intro p
      rw [positions, hS.activeBlocks hc, slotsOf, List.mem_flatMap]
      constructor
      · rintro ⟨a, ha, hp⟩
        obtain ⟨j, hj, rfl⟩ := List.mem_map.mp hp
        exact ⟨ha, hj⟩
      · rintro ⟨ha, hj⟩
        exact ⟨p.1, ha, List.mem_map.mpr ⟨p.2, hj, rfl⟩⟩
    have hbound : ∀ {b i}, b ∈ S.active → i ∈ (w.block b).live → i < (w.block b).capacity := by
      intro b i hb hlive
      obtain ⟨⟨fl, hok⟩, -⟩ := hS.represents.filled.active b hb
      exact (Block.mem_live.mp hlive).1.trans_le hok.bounded
    refine ⟨fun p hp => ?_, fun target hnone => ?_⟩
    · obtain ⟨hb, hlive⟩ := (hmem p).mp hp
      -- another block with the same address would overlap this one
      have honly : ∀ b' ∈ S.active, b' ≠ p.1 → m.findIn w (m.rawElement p.1 p.2) b' = none := by
        intro b' hb' hne
        cases hin : m.findIn w (m.rawElement p.1 p.2) b' with
        | none => rfl
        | some j =>
          obtain ⟨hj, haddr⟩ := m.findIn_eq_some.mp hin
          have hself := m.rawElement_bounds (hbound hb hlive)
          have hother := m.rawElement_bounds (hbound hb' hj)
          have happ : m.Apart w p.1 b' := by
            have : Std.Symm (m.Apart w) := ⟨fun a a' hor => hor.symm⟩
            exact hapart.forall hb hb' hne.symm
          unfold SlotLayout.Apart at happ
          rw [haddr] at hother
          omega
      rw [hfind, SlotLayout.findFrom_eq hL.active_chain hL.active_length_le hb
        (m.findIn_eq_some.mpr ⟨hlive, rfl⟩) honly]
      rfl
    · have hall : ∀ b ∈ S.active, m.findIn w target b = none := by
        intro b hb
        cases hin : m.findIn w target b with
        | none => rfl
        | some j =>
          obtain ⟨hj, haddr⟩ := m.findIn_eq_some.mp hin
          exact absurd haddr (hnone (b, j) ((hmem (b, j)).mpr ⟨hb, hj⟩))
      rw [hfind, SlotLayout.findFrom_none hL.active_chain hall]
      rfl

theorem World.getIterator_eq (w : World α) (m : SlotLayout) (h : HiveId) (target : ℕ)
    (hfound : w.getIteratorConst m h target ∈ w.iterators h) :
    w.getIterator m h target = w.getIteratorConst m h target := by
  unfold getIterator
  rw [iterators, List.mem_append, List.mem_map, List.mem_singleton] at hfound
  obtain ⟨p, -, hp⟩ | hp := hfound
  · rw [← hp]
    rfl
  · rw [hp]
    rfl

end CCForge.Hive
