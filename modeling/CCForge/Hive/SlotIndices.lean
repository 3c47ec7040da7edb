import CCForge.Hive.LimitsKept

/-!
# Slot indices in 16 bits

No index, run length or link of a block is truncated when it is stored, or is mistaken for
the value that stands for no slot.
-/

namespace CCForge.Hive

variable {α : Type}

/-- The value is stored as it is and differs from `slot_npos`. -/
def Exact (n : ℕ) : Prop := toSlotIndexType n = n ∧ n ≠ slotNpos

/-- What is read back names a slot, or stands for none. -/
def ExactLink (link : ℕ) : Prop := link = slotNpos ∨ Exact link

theorem exact_of_lt {n : ℕ} (hn : n < 65535) : Exact n := by
  unfold Exact toSlotIndexType slotNpos
  omega

theorem exactLink_of_wide {link : ℕ} (hl : ∀ i, toWideIndex link = some i → i < 65535) :
    ExactLink link := by
  by_cases hn : link = slotNpos
  · exact .inl hn
  · exact .inr (exact_of_lt (hl link (toWideIndex_eq_some.mpr ⟨rfl, hn⟩)))

namespace Block

/-! ## What the operations convert -/

/-- The values that `move_free_run` gives to `to_slot_index`. -/
def moveFreeRunCasts (index : ℕ) (links : FreeRunLinks) : List ℕ :=
  (if links.previous = slotNpos then [] else [index]) ++
    if links.next = slotNpos then [] else [index]

/-- The values that `push_free_run` gives to `to_slot_index`. -/
def pushFreeRunCasts (k : Block α) (index : ℕ) : List ℕ :=
  k.freeHead.toList ++ moveFreeRunCasts index ⟨slotNpos, toSlotIndex k.freeHead⟩

/-- The values that `emplace` converts in an available block. -/
def emplaceCasts (k : Block α) : List ℕ :=
  let index := k.emplaceIndex
  let runLength := k.skip index
  if k.freeHead.isSome ∧ runLength ≠ 1 then
    (runLength - 1) :: moveFreeRunCasts (index + 1) (k.readFreeLinks index)
  else []

/-- The values that `erase` converts. -/
def eraseCasts (k : Block α) (index : ℕ) : List ℕ :=
  if index = k.highWater - 1 then []
  else
    let left := if index = 0 then 0 else k.skip (index - 1)
    let right := k.skip (index + 1)
    (left + right + 1) ::
      if left = 0 ∧ right = 0 then k.pushFreeRunCasts index
      else if right = 0 then []
      else if left = 0 then moveFreeRunCasts index (k.readFreeLinks (index + 1))
      else []

/-- Every value that is stored in 16 bits is exact. -/
structure SlotsExact (k : Block α) : Prop where
  index : ∀ i < k.capacity, Exact i
  runs : ∀ a n, IsRun k.dead a n → k.skip a = n ∧ k.skip (a + n - 1) = n ∧ Exact n
  links : ∀ a n, IsRun k.dead a n →
    ExactLink (k.readFreeLinks a).previous ∧ ExactLink (k.readFreeLinks a).next
  emplace : ∀ x ∈ k.emplaceCasts, Exact x
  erase : ∀ i ∈ k.live, ∀ x ∈ k.eraseCasts i, Exact x

variable {k : Block α} {fl : List ℕ} {i x : ℕ} {links : FreeRunLinks}

theorem mem_moveFreeRunCasts (hx : x ∈ moveFreeRunCasts i links) : x = i := by
  unfold moveFreeRunCasts at hx
  split_ifs at hx <;> simp_all

theorem Ok.links_wide (h : k.Ok fl) (hi : i ∈ fl) :
    (∀ j, toWideIndex (k.readFreeLinks i).previous = some j → j < 65535) ∧
      ∀ j, toWideIndex (k.readFreeLinks i).next = some j → j < 65535 := by
  obtain ⟨l₁, l₂, hl⟩ := List.append_of_mem hi
  have hfree := h.free
  rw [hl] at hfree
  have hp := hfree.pieces
  refine ⟨fun j hj => ?_, fun j hj => ?_⟩
  · rw [hp.previous] at hj
    apply h.free_small
    rw [hl]
    exact List.mem_append_left _ (List.mem_of_getLast? hj)
  · rw [hp.next] at hj
    apply h.free_small
    rw [hl]
    exact List.mem_append_right _ (List.mem_cons_of_mem _ (List.mem_of_head? hj))

theorem Ok.freeHead_small (h : k.Ok fl) {j : ℕ} (hj : k.freeHead = some j) : j ∈ fl := by
  rw [h.free.head] at hj
  exact List.mem_of_head? hj

theorem Ok.emplaceCasts_exact (h : k.Ok fl) (hx : x ∈ k.emplaceCasts) : Exact x := by
  unfold emplaceCasts at hx
  simp only at hx
  split at hx
  · next hc =>
    obtain ⟨a, ha⟩ := Option.isSome_iff_exists.mp hc.1
    have hindex : k.emplaceIndex = a := by
      unfold emplaceIndex
      rw [ha]
      rfl
    rw [hindex] at hx hc
    obtain ⟨n, hn⟩ := (h.runs a).mp (h.freeHead_small ha)
    have hskip := (h.lengths a n hn).1
    have hbound := h.run_bounded hn
    have hpos := hn.pos
    have hw := h.bounded
    have hs := h.small
    apply exact_of_lt
    rw [List.mem_cons] at hx
    obtain rfl | hx := hx
    · omega
    · have hxi := mem_moveFreeRunCasts hx
      omega
  · exact absurd hx List.not_mem_nil

theorem Ok.eraseCasts_exact (h : k.Ok fl) (hi : i ∈ k.live) (hx : x ∈ k.eraseCasts i) :
    Exact x := by
  obtain ⟨hlt, hlive⟩ := mem_live.mp hi
  have hdead : i ∉ k.dead := fun hm => hm.2 hlive
  have hw := h.bounded
  have hs := h.small
  unfold eraseCasts at hx
  simp only at hx
  split at hx
  · exact absurd hx List.not_mem_nil
  · next hback =>
    have hin : i + 1 < k.highWater := by omega
    -- both neighbours are dead runs that end below `high_water`
    have hsum : (if i = 0 then 0 else k.skip (i - 1)) + k.skip (i + 1) + 1 < 65535 := by
      have hleft : (if i = 0 then 0 else k.skip (i - 1)) ≤ i := by
        split_ifs with h0
        · omega
        · by_cases hz : k.skip (i - 1) = 0
          · omega
          · exact (h.left_run hdead hlt hz).1
      by_cases hz : k.skip (i + 1) = 0
      · omega
      · have hright := h.run_bounded (h.right_run hdead hin hz)
        omega
    have hexact : Exact i := exact_of_lt (by omega)
    generalize (if i = 0 then 0 else k.skip (i - 1)) = left at hsum hx
    rw [List.mem_cons] at hx
    obtain rfl | hx := hx
    · exact exact_of_lt hsum
    · split_ifs at hx
      · rw [pushFreeRunCasts, List.mem_append, Option.mem_toList] at hx
        obtain hx | hx := hx
        · exact exact_of_lt (h.free_small (h.freeHead_small hx))
        · rw [mem_moveFreeRunCasts hx]
          exact hexact
      · exact absurd hx List.not_mem_nil
      · rw [mem_moveFreeRunCasts hx]
        exact hexact
      · exact absurd hx List.not_mem_nil

/-- A block in order stores all its values exactly. -/
theorem Ok.slotsExact (h : k.Ok fl) : k.SlotsExact := by
  have hw := h.bounded
  have hs := h.small
  refine ⟨fun i hi => exact_of_lt (by omega), fun a n hn => ?_, fun a n hn => ?_,
    fun x hx => h.emplaceCasts_exact hx, fun i hi x hx => h.eraseCasts_exact hi hx⟩
  · obtain ⟨hfirst, hlast⟩ := h.lengths a n hn
    have hbound := h.run_bounded hn
    exact ⟨hfirst, hlast, exact_of_lt (by omega)⟩
  · obtain ⟨hp, hn⟩ := h.links_wide ((h.runs a).mpr ⟨n, hn⟩)
    exact ⟨exactLink_of_wide hp, exactLink_of_wide hn⟩

/-- So does a block without elements. -/
theorem Vacant.slotsExact (h : k.Vacant) (hs : k.capacity ≤ 65535) : k.SlotsExact := by
  have hdead : ∀ i, i ∉ k.dead := fun i hi => by
    have hlt := hi.1
    rw [h.highWater] at hlt
    exact Nat.not_lt_zero i hlt
  refine ⟨fun i hi => exact_of_lt (by omega), fun a n hn => absurd hn.start_mem (hdead a),
    fun a n hn => absurd hn.start_mem (hdead a), fun x hx => ?_, fun i hi => ?_⟩
  · simp [emplaceCasts, h.freeHead] at hx
  · simp [live, h.highWater] at hi

end Block

end CCForge.Hive
