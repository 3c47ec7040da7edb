import CCForge.Lib.LinkedList
import CCForge.Hive.Block

/-!
# The free list of a block

The links that the dead runs of a block hold in their first slots form a doubly
linked list. Stored in 16 bits, they are read back exactly for every real index.
-/

namespace CCForge.Hive

variable {α : Type*}

theorem toWideIndex_eq_none {u : ℕ} : toWideIndex u = none ↔ u = slotNpos := by
  unfold toWideIndex
  split_ifs with h <;> simp [h]

theorem toWideIndex_eq_some {u i : ℕ} : toWideIndex u = some i ↔ u = i ∧ i ≠ slotNpos := by
  unfold toWideIndex
  split_ifs with h
  · simp only [false_iff]
    omega
  · simp only [Option.some.injEq]
    omega

theorem toWideIndex_toSlotIndex {i : ℕ} (h : i < 65535) :
    toWideIndex (toSlotIndex (some i)) = some i := by
  rw [toWideIndex_eq_some]
  simp only [toSlotIndex, toSlotIndexType, slotNpos]
  omega

theorem toWideIndex_toSlotIndex_option {o : Option ℕ} (h : ∀ i, o = some i → i < 65535) :
    toWideIndex (toSlotIndex o) = o := by
  cases o with
  | none => rfl
  | some i => exact toWideIndex_toSlotIndex (h i rfl)

namespace Block

/-- The free links of a block with wide indices. -/
def freeLinks (b : Block α) : Links ℕ where
  next i := toWideIndex (b.readFreeLinks i).next
  prev i := toWideIndex (b.readFreeLinks i).previous

variable {b : Block α} {i p n : ℕ} {links : FreeRunLinks}

theorem freeLinks_writeFreeLinks : (b.writeFreeLinks i links).freeLinks =
    (b.freeLinks.setNext i (toWideIndex links.next)).setPrev i (toWideIndex links.previous) := by
  unfold freeLinks Links.setNext Links.setPrev
  congr 1
  · funext j
    by_cases hj : j = i
    · subst hj
      simp [readFreeLinks, writeFreeLinks, setSlot]
    · simp [readFreeLinks, writeFreeLinks, setSlot, hj]
  · funext j
    by_cases hj : j = i
    · subst hj
      simp [readFreeLinks, writeFreeLinks, setSlot]
    · simp [readFreeLinks, writeFreeLinks, setSlot, hj]

theorem freeLinks_setNextOf :
    (b.setNextOf p n).freeLinks = b.freeLinks.setNextOf (toWideIndex p) (toWideIndex n) := by
  by_cases hp : p = slotNpos
  · rw [toWideIndex_eq_none.mpr hp]
    simp [setNextOf, hp, Links.setNextOf, freeLinks, readFreeLinks]
  · rw [toWideIndex_eq_some.mpr ⟨rfl, hp⟩]
    simp only [setNextOf, hp, if_false, Links.setNextOf, freeLinks_writeFreeLinks, Links.setNext,
      Links.setPrev]
    congr 1
    funext j
    by_cases hj : j = p
    · subst hj
      simp [freeLinks]
    · simp [hj]

theorem freeLinks_setPreviousOf :
    (b.setPreviousOf n p).freeLinks = b.freeLinks.setPrevOf (toWideIndex n) (toWideIndex p) := by
  by_cases hn : n = slotNpos
  · rw [toWideIndex_eq_none.mpr hn]
    simp [setPreviousOf, hn, Links.setPrevOf]
  · rw [toWideIndex_eq_some.mpr ⟨rfl, hn⟩]
    simp only [setPreviousOf, hn, if_false, Links.setPrevOf, freeLinks_writeFreeLinks,
      Links.setNext, Links.setPrev]
    congr 1
    funext j
    by_cases hj : j = n
    · subst hj
      simp [freeLinks]
    · simp [hj]

/-- What the free-list operations leave alone. -/
structure SameSkip (b b' : Block α) : Prop where
  capacity : b'.capacity = b.capacity
  liveCount : b'.liveCount = b.liveCount
  highWater : b'.highWater = b.highWater
  skip : b'.skip = b.skip

theorem setNextOf_same : SameSkip b (b.setNextOf p n) := by
  unfold setNextOf writeFreeLinks setSlot
  split_ifs <;> exact ⟨rfl, rfl, rfl, rfl⟩

theorem setPreviousOf_same : SameSkip b (b.setPreviousOf n p) := by
  unfold setPreviousOf writeFreeLinks setSlot
  split_ifs <;> exact ⟨rfl, rfl, rfl, rfl⟩

theorem SameSkip.trans {b b' b'' : Block α} (h : SameSkip b b') (h' : SameSkip b' b'') :
    SameSkip b b'' :=
  ⟨h'.capacity.trans h.capacity, h'.liveCount.trans h.liveCount, h'.highWater.trans h.highWater,
    h'.skip.trans h.skip⟩

theorem unlinkFreeRun_same (b : Block α) (links : FreeRunLinks) : SameSkip b (b.unlinkFreeRun links) :=
  setNextOf_same.trans setPreviousOf_same

theorem moveFreeRun_same (b : Block α) (i : ℕ) (links : FreeRunLinks) : SameSkip b (b.moveFreeRun i links) := by
  have h : SameSkip b (b.writeFreeLinks i links) := ⟨rfl, rfl, rfl, rfl⟩
  exact h.trans (setNextOf_same.trans setPreviousOf_same)

theorem setNextOf_freeHead : (b.setNextOf p n).freeHead =
    if toWideIndex p = none then toWideIndex n else b.freeHead := by
  by_cases hp : p = slotNpos
  · simp [setNextOf, hp, toWideIndex]
  · simp [setNextOf, hp, toWideIndex, writeFreeLinks, setSlot]

theorem setPreviousOf_freeHead : (b.setPreviousOf n p).freeHead = b.freeHead := by
  unfold setPreviousOf writeFreeLinks setSlot
  split_ifs <;> rfl

theorem setNextOf_slots {j : ℕ} (h : toWideIndex p ≠ some j) :
    (b.setNextOf p n).slots j = b.slots j := by
  unfold setNextOf
  split_ifs with hp
  · rfl
  · have hj : j ≠ p := fun he => h (by rw [toWideIndex_eq_some, he]; exact ⟨rfl, hp⟩)
    simp [writeFreeLinks, setSlot, hj]

theorem setPreviousOf_slots {j : ℕ} (h : toWideIndex n ≠ some j) :
    (b.setPreviousOf n p).slots j = b.slots j := by
  unfold setPreviousOf
  split_ifs with hn
  · rfl
  · have hj : j ≠ n := fun he => h (by rw [toWideIndex_eq_some, he]; exact ⟨rfl, hn⟩)
    simp [writeFreeLinks, setSlot, hj]

/-- A slot with links keeps some links. -/
theorem setNextOf_stored {j : ℕ} (h : ∃ l, b.slots j = .links l) :
    ∃ l, (b.setNextOf p n).slots j = .links l := by
  by_cases hp : toWideIndex p = some j
  · obtain ⟨rfl, hne⟩ := toWideIndex_eq_some.mp hp
    refine ⟨{ b.readFreeLinks p with next := n }, ?_⟩
    simp [setNextOf, hne, writeFreeLinks, setSlot]
  · rw [setNextOf_slots hp]
    exact h

theorem setPreviousOf_stored {j : ℕ} (h : ∃ l, b.slots j = .links l) :
    ∃ l, (b.setPreviousOf n p).slots j = .links l := by
  by_cases hn : toWideIndex n = some j
  · obtain ⟨rfl, hne⟩ := toWideIndex_eq_some.mp hn
    refine ⟨{ b.readFreeLinks n with previous := p }, ?_⟩
    simp [setPreviousOf, hne, writeFreeLinks, setSlot]
  · rw [setPreviousOf_slots hn]
    exact h

/-- The free list of `b` visits the slots `fl`. -/
structure FreeList (b : Block α) (fl : List ℕ) : Prop where
  head : b.freeHead = fl.head?
  nodup : fl.Nodup
  seg : b.freeLinks.Seg none fl none
  stored : ∀ i ∈ fl, ∃ l, b.slots i = .links l

/-- The free list with one node taken out: what is before it and what is behind it,
and the links that the node held. -/
structure Pieces (b : Block α) (links : FreeRunLinks) (l₁ l₂ : List ℕ) : Prop where
  nodup : (l₁ ++ l₂).Nodup
  front : ∃ q, b.freeLinks.Seg none l₁ q
  back : ∃ p, b.freeLinks.Seg p l₂ none
  stored : ∀ i ∈ l₁ ++ l₂, ∃ l, b.slots i = .links l
  head : l₁ ≠ [] → b.freeHead = l₁.head?
  previous : toWideIndex links.previous = l₁.getLast?
  next : toWideIndex links.next = l₂.head?

variable {fl l₁ l₂ : List ℕ}

theorem FreeList.pieces (h : b.FreeList (l₁ ++ i :: l₂)) : b.Pieces (b.readFreeLinks i) l₁ l₂ := by
  obtain ⟨hp, hq, hfront, hback⟩ := h.seg.neighbours
  have hn := h.nodup
  refine ⟨?_, ⟨_, hfront⟩, ⟨_, hback⟩, fun j hj => h.stored j ?_, fun hne => ?_, hp, hq⟩
  · exact hn.sublist (List.Sublist.append_left (List.sublist_cons_self i l₂) l₁)
  · rcases List.mem_append.mp hj with hj | hj <;> simp [hj]
  · rw [h.head]
    cases l₁ with
    | nil => exact absurd rfl hne
    | cons a l => rfl

/-- Pieces only depend on the head and on the slots of the nodes. -/
theorem Pieces.congr {b' : Block α} (h : b.Pieces links l₁ l₂) (hh : b'.freeHead = b.freeHead)
    (hs : ∀ i ∈ l₁ ++ l₂, b'.slots i = b.slots i) : b'.Pieces links l₁ l₂ := by
  have hlinks : ∀ i ∈ l₁ ++ l₂, b'.freeLinks.next i = b.freeLinks.next i ∧
      b'.freeLinks.prev i = b.freeLinks.prev i := by
    intro i hi
    simp [freeLinks, readFreeLinks, hs i hi]
  obtain ⟨q, hq⟩ := h.front
  obtain ⟨p, hp⟩ := h.back
  refine ⟨h.nodup, ⟨q, hq.congr ?_ ?_⟩, ⟨p, hp.congr ?_ ?_⟩, ?_, ?_, h.previous, h.next⟩
  · exact fun i hi => (hlinks i (List.mem_append_left l₂ hi)).1
  · exact fun i hi => (hlinks i (List.mem_append_left l₂ hi)).2
  · exact fun i hi => (hlinks i (List.mem_append_right l₁ hi)).1
  · exact fun i hi => (hlinks i (List.mem_append_right l₁ hi)).2
  · intro i hi
    rw [hs i hi]
    exact h.stored i hi
  · rw [hh]
    exact h.head

theorem Pieces.unlink (h : b.Pieces links l₁ l₂) : (b.unlinkFreeRun links).FreeList (l₁ ++ l₂) := by
  obtain ⟨q, hq⟩ := h.front
  obtain ⟨p, hp⟩ := h.back
  refine ⟨?_, h.nodup, ?_, ?_⟩
  · rw [unlinkFreeRun, setPreviousOf_freeHead, setNextOf_freeHead, h.previous, h.next]
    cases hl : l₁ with
    | nil => simp
    | cons a l =>
      rw [if_neg (by simp), h.head (by simp [hl]), hl]
      rfl
  · rw [unlinkFreeRun, freeLinks_setPreviousOf, freeLinks_setNextOf, h.previous, h.next]
    exact hq.join hp h.nodup
  · intro j hj
    exact setPreviousOf_stored (setNextOf_stored (h.stored j hj))

theorem Pieces.move (h : b.Pieces links l₁ l₂) (hi : i < 65535) (hn : i ∉ l₁ ++ l₂) :
    (b.moveFreeRun i links).FreeList (l₁ ++ i :: l₂) := by
  have hnodup : (l₁ ++ i :: l₂).Nodup := by
    rw [List.nodup_middle, List.nodup_cons]
    exact ⟨hn, h.nodup⟩
  have hw : (b.writeFreeLinks i links).Pieces links l₁ l₂ := by
    refine h.congr rfl fun j hj => ?_
    have hne : j ≠ i := fun he => hn (he ▸ hj)
    simp [writeFreeLinks, setSlot, hne]
  obtain ⟨q, hq⟩ := hw.front
  obtain ⟨p, hp⟩ := hw.back
  refine ⟨?_, hnodup, ?_, ?_⟩
  · rw [moveFreeRun, setPreviousOf_freeHead, setNextOf_freeHead, h.previous,
      toWideIndex_toSlotIndex hi]
    cases hl : l₁ with
    | nil => simp
    | cons a l =>
      rw [if_neg (by simp), hw.head (by simp [hl]), hl]
      rfl
  · rw [moveFreeRun, freeLinks_setPreviousOf, freeLinks_setNextOf, h.previous, h.next,
      toWideIndex_toSlotIndex hi]
    refine hq.insert hp hnodup ?_ ?_
    · rw [freeLinks_writeFreeLinks]
      simp [Links.setPrev, h.previous]
    · rw [freeLinks_writeFreeLinks]
      simp [Links.setPrev, Links.setNext, h.next]
  · intro j hj
    refine setPreviousOf_stored (setNextOf_stored ?_)
    by_cases hji : j = i
    · subst hji
      exact ⟨links, by simp [writeFreeLinks, setSlot]⟩
    · refine hw.stored j ?_
      simpa [hji] using hj

/-- A push is a move of a run that was before all others. -/
theorem FreeList.push (h : b.FreeList fl) (hsmall : ∀ j ∈ fl, j < 65535) :
    b.Pieces ⟨slotNpos, toSlotIndex b.freeHead⟩ [] fl := by
  refine ⟨h.nodup, ⟨none, trivial⟩, ⟨_, h.seg⟩, h.stored, fun hne => absurd rfl hne, ?_, ?_⟩
  · simp [toWideIndex]
  · show toWideIndex (toSlotIndex b.freeHead) = fl.head?
    rw [toWideIndex_toSlotIndex_option, h.head]
    intro j hj
    rw [h.head] at hj
    exact hsmall j (List.mem_of_head? hj)

/-- Slots outside the free list keep their bytes. -/
theorem Pieces.unlink_slots (h : b.Pieces links l₁ l₂) {j : ℕ} (hj : j ∉ l₁ ++ l₂) :
    (b.unlinkFreeRun links).slots j = b.slots j := by
  rw [unlinkFreeRun, setPreviousOf_slots, setNextOf_slots]
  · rw [h.previous]
    exact fun he => hj (List.mem_append_left l₂ (List.mem_of_getLast? he))
  · rw [h.next]
    exact fun he => hj (List.mem_append_right l₁ (List.mem_of_head? he))

theorem Pieces.move_slots (h : b.Pieces links l₁ l₂) {j : ℕ} (hj : j ∉ l₁ ++ l₂) (hji : j ≠ i) :
    (b.moveFreeRun i links).slots j = b.slots j := by
  rw [moveFreeRun, setPreviousOf_slots, setNextOf_slots]
  · simp [writeFreeLinks, setSlot, hji]
  · rw [h.previous]
    exact fun he => hj (List.mem_append_left l₂ (List.mem_of_getLast? he))
  · rw [h.next]
    exact fun he => hj (List.mem_append_right l₁ (List.mem_of_head? he))

end Block

end CCForge.Hive
