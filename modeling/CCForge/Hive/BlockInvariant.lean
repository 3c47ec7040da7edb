import CCForge.Lib.Runs
import CCForge.Hive.FreeList

/-!
# The invariant of a block

The dead slots below `high_water` fall into maximal runs. Each run stores its length
at both ends, and the free list visits the first slot of each run once. Insertion
and erasure are followed through every case of splitting and merging runs.
-/

namespace CCForge.Hive.Block

variable {α : Type*} {b b' : Block α} {fl : List ℕ} {i j : ℕ} {v : α}

/-- The dead slots of a block. -/
def dead (b : Block α) : Set ℕ := {i | i < b.highWater ∧ b.skip i ≠ 0}

theorem mem_dead : i ∈ b.dead ↔ i < b.highWater ∧ b.skip i ≠ 0 := Iff.rfl

structure Ok (b : Block α) (fl : List ℕ) : Prop where
  bounded : b.highWater ≤ b.capacity
  small : b.capacity ≤ 65535
  last : ∀ i, i + 1 = b.highWater → b.skip i = 0
  lengths : ∀ a n, IsRun b.dead a n → b.skip a = n ∧ b.skip (a + n - 1) = n
  free : b.FreeList fl
  runs : ∀ a, a ∈ fl ↔ ∃ n, IsRun b.dead a n
  count : b.liveCount = b.live.length
  elements : ∀ i, i < b.highWater → b.skip i = 0 → ∃ v, b.slots i = .element v

theorem Ok.free_nil (h : b.Ok fl) (hf : b.freeHead = none) : fl = [] := by
  have hhead := h.free.head
  rw [hf] at hhead
  exact List.head?_eq_none_iff.mp hhead.symm

theorem mem_live : i ∈ b.live ↔ i < b.highWater ∧ b.skip i = 0 := by
  simp [live]

theorem live_nodup : b.live.Nodup := List.nodup_range.filter _

theorem live_length_le : b.live.length ≤ b.highWater := by
  have hle := List.length_filter_le (fun i => decide (b.skip i = 0)) (List.range b.highWater)
  simpa [Block.live] using hle

/-- Two filtered ranges with the same members are the same list. -/
theorem filter_range_congr {m n : ℕ} {p q : ℕ → Bool}
    (h : ∀ i, i < m ∧ p i = true ↔ i < n ∧ q i = true) :
    (List.range m).filter p = (List.range n).filter q := by
  have hsorted : ∀ (k : ℕ) (r : ℕ → Bool), ((List.range k).filter r).Pairwise (· < ·) :=
    fun k r => List.pairwise_lt_range.filter r
  refine List.Perm.eq_of_pairwise ?_ (hsorted m p) (hsorted n q) ?_
  · intro x y _ _ hxy hyx
    omega
  · refine (List.perm_ext_iff_of_nodup (List.nodup_range.filter _) (List.nodup_range.filter _)).mpr ?_
    intro x
    simpa using h x

namespace Ok

variable (h : b.Ok fl)
include h

theorem dead_bounded (hi : i ∈ b.dead) : i + 1 < b.highWater := by
  obtain ⟨hlt, hne⟩ := hi
  by_contra hge
  exact hne (h.last i (by omega))

omit h in
theorem run_of_dead (hi : i ∈ b.dead) : ∃ a n, IsRun b.dead a n ∧ a ≤ i ∧ i < a + n :=
  IsRun.exists_of_mem hi (N := b.highWater) fun j hj hm => by
    have hlt := hm.1
    omega

theorem run_bounded {a n : ℕ} (hr : IsRun b.dead a n) : a + n < b.highWater := by
  have hpos := hr.pos
  have hlast := h.dead_bounded (hr.mem (a + n - 1) (by omega) (by omega))
  omega

theorem mem_free_dead (hi : i ∈ fl) : i ∈ b.dead := by
  obtain ⟨n, hn⟩ := (h.runs i).mp hi
  exact hn.start_mem

theorem live_notMem (hi : i ∈ b.live) : i ∉ fl := fun hm =>
  (h.mem_free_dead hm).2 (mem_live.mp hi).2

theorem free_small (hi : i ∈ fl) : i < 65535 := by
  have hb := h.bounded
  have hs := h.small
  have hlt := h.dead_bounded (h.mem_free_dead hi)
  omega

/-- The run that ends right before a live slot, read off its last entry. -/
theorem left_run (hi : i ∉ b.dead) (hlt : i < b.highWater)
    (hs : b.skip (i - 1) ≠ 0) :
    b.skip (i - 1) ≤ i ∧ IsRun b.dead (i - b.skip (i - 1)) (b.skip (i - 1)) := by
  have hm : i - 1 ∈ b.dead := ⟨by omega, hs⟩
  obtain ⟨a, n, hr, h1, h2⟩ := run_of_dead hm
  have hend : a + n = i := by
    by_contra hne
    exact hi (hr.mem i (by omega) (by omega))
  have hn := (h.lengths a n hr).2
  rw [show a + n - 1 = i - 1 by omega] at hn
  rw [hn]
  have ha : i - n = a := by omega
  rw [ha]
  exact ⟨by omega, hr⟩

/-- The run that begins right behind a live slot, read off its first entry. -/
theorem right_run (hi : i ∉ b.dead) (hlt : i + 1 < b.highWater) (hs : b.skip (i + 1) ≠ 0) :
    IsRun b.dead (i + 1) (b.skip (i + 1)) := by
  have hm : i + 1 ∈ b.dead := ⟨hlt, hs⟩
  obtain ⟨a, n, hr, h1, h2⟩ := run_of_dead hm
  have hstart : a = i + 1 := by
    by_contra hne
    exact hi (hr.mem i (by omega) (by omega))
  subst hstart
  rw [(h.lengths _ n hr).1]
  exact hr

theorem leftOf (hi : i ∉ b.dead) (hlt : i < b.highWater) :
    IsRun.LeftOf b.dead i (if i = 0 then 0 else b.skip (i - 1)) := by
  split_ifs with h0
  · exact IsRun.leftOf_zero fun j hj => by omega
  · by_cases hs : b.skip (i - 1) = 0
    · rw [hs]
      refine IsRun.leftOf_zero fun j hj hm => hm.2 ?_
      rw [show j = i - 1 by omega, hs]
    · obtain ⟨hle, hr⟩ := h.left_run hi hlt hs
      exact hr.leftOf (by omega)

theorem rightOf (hi : i ∉ b.dead) (hlt : i + 1 < b.highWater) :
    IsRun.RightOf b.dead i (b.skip (i + 1)) := by
  by_cases hs : b.skip (i + 1) = 0
  · rw [hs]
    exact IsRun.rightOf_zero fun hm => hm.2 hs
  · exact (h.right_run hi hlt hs).rightOf

end Ok

/-- A block that differs from a good one in the number of live slots and in one slot
outside the free list is good for its new set of dead slots, if its entries and its
free list are. -/
theorem Ok.intro {fl' : List ℕ} (h : b.Ok fl) (hcap : b'.capacity = b.capacity)
    (hw : b'.highWater ≤ b.capacity) (hlast : ∀ i, i + 1 = b'.highWater → b'.skip i = 0)
    (hlen : ∀ a n, IsRun b'.dead a n → b'.skip a = n ∧ b'.skip (a + n - 1) = n)
    (hfree : b'.FreeList fl') (hruns : ∀ a, a ∈ fl' ↔ ∃ n, IsRun b'.dead a n)
    (hcount : b'.liveCount = b'.live.length)
    (helem : ∀ i, i < b'.highWater → b'.skip i = 0 → ∃ v, b'.slots i = .element v) : b'.Ok fl' :=
  ⟨by rw [hcap]; exact hw, by rw [hcap]; exact h.small, hlast, hlen, hfree, hruns, hcount, helem⟩

theorem FreeList.congr (h : b.FreeList fl) (hh : b'.freeHead = b.freeHead)
    (hs : ∀ i ∈ fl, b'.slots i = b.slots i) : b'.FreeList fl := by
  obtain ⟨h1, h2, h3, h4⟩ := h
  refine ⟨hh.trans h1, h2, h3.congr (fun i hi => ?_) (fun i hi => ?_), fun i hi => ?_⟩
  · simp [freeLinks, readFreeLinks, hs i hi]
  · simp [freeLinks, readFreeLinks, hs i hi]
  · rw [hs i hi]
    exact h4 i hi

/-! ## Insertion -/

/-- `b'` has one live slot more than `b`, with the element `v`. -/
structure Inserted (b b' : Block α) (i : ℕ) (v : α) : Prop where
  capacity : b'.capacity = b.capacity
  fresh : i ∉ b.live
  live : ∀ j, j ∈ b'.live ↔ j ∈ b.live ∨ j = i
  count : b'.liveCount = b.liveCount + 1
  element : b'.slots i = .element v
  frame : ∀ j ∈ b.live, b'.slots j = b.slots j

theorem Inserted.live_filter (h : Inserted b b' i v) : b'.live.filter (· ≠ i) = b.live := by
  have hf : ∀ j, j ∈ b.live → j ≠ i := fun j hj he => h.fresh (he ▸ hj)
  unfold Block.live
  rw [List.filter_filter]
  refine filter_range_congr fun j => ?_
  have hj := h.live j
  rw [mem_live, mem_live] at hj
  have hne := hf j
  rw [mem_live] at hne
  simp only [Bool.and_eq_true, decide_eq_true_eq]
  tauto

theorem Inserted.live_length (h : Inserted b b' i v) : b'.live.length = b.live.length + 1 := by
  have hp : b'.live.Perm (i :: b.live) := by
    refine (List.perm_ext_iff_of_nodup live_nodup (List.nodup_cons.mpr ⟨h.fresh, live_nodup⟩)).mpr ?_
    intro j
    rw [h.live j, List.mem_cons]
    tauto
  rw [hp.length_eq, List.length_cons]

theorem Inserted.elements (h : b.Ok fl) (hi : Inserted b b' i v) (hj : j ∈ b'.live) :
    ∃ w, b'.slots j = .element w := by
  rcases (hi.live j).mp hj with hj | rfl
  · obtain ⟨hlt, hs⟩ := mem_live.mp hj
    rw [hi.frame j hj]
    exact h.elements j hlt hs
  · exact ⟨v, hi.element⟩

theorem Ok.of_inserted {fl' : List ℕ} (h : b.Ok fl) (hi : Inserted b b' i v)
    (hw : b'.highWater ≤ b.capacity) (hlast : ∀ i, i + 1 = b'.highWater → b'.skip i = 0)
    (hlen : ∀ a n, IsRun b'.dead a n → b'.skip a = n ∧ b'.skip (a + n - 1) = n)
    (hfree : b'.FreeList fl') (hruns : ∀ a, a ∈ fl' ↔ ∃ n, IsRun b'.dead a n) : b'.Ok fl' := by
  refine h.intro hi.capacity hw hlast hlen hfree hruns ?_ ?_
  · rw [hi.count, h.count, hi.live_length]
  · exact fun j h1 h2 => hi.elements h (mem_live.mpr ⟨h1, h2⟩)

/-- No dead run left: the element goes to the slot at `high_water`. -/
theorem emplaceCommit_eq (hf : b.freeHead = none) : b.emplaceCommit v =
    { (b.setSlot b.highWater (.element v)).setSkip b.highWater 0 with
      highWater := b.highWater + 1, liveCount := b.liveCount + 1 } := by
  simp [emplaceCommit, emplaceIndex, hf, setSlot, setSkip]

theorem emplaceCommit_append (h : b.Ok fl) (hf : b.freeHead = none)
    (hroom : b.highWater < b.capacity) (v : α) :
    Inserted b (b.emplaceCommit v) b.highWater v ∧ (b.emplaceCommit v).Ok fl := by
  rw [emplaceCommit_eq hf]
  have hfl := h.free_nil hf
  have hins : Inserted b { (b.setSlot b.highWater (.element v)).setSkip b.highWater 0 with
      highWater := b.highWater + 1, liveCount := b.liveCount + 1 } b.highWater v := by
    refine ⟨rfl, ?_, ?_, rfl, by simp [setSlot, setSkip], ?_⟩
    · intro hm
      have hlt := (mem_live.mp hm).1
      omega
    · intro j
      rw [mem_live, mem_live]
      by_cases hj : j = b.highWater
      · subst hj
        simp [setSlot, setSkip]
      · simp only [setSlot, setSkip, Function.update_of_ne hj]
        constructor
        · rintro ⟨h1, h2⟩
          exact .inl ⟨by omega, h2⟩
        · rintro (⟨h1, h2⟩ | h1)
          · exact ⟨by omega, h2⟩
          · exact absurd h1 hj
    · intro j hj
      have hne : j ≠ b.highWater := by
        have hlt := (mem_live.mp hj).1
        omega
      simp [setSlot, setSkip, hne]
  refine ⟨hins, ?_⟩
  have hdead : ({ (b.setSlot b.highWater (.element v)).setSkip b.highWater 0 with
      highWater := b.highWater + 1, liveCount := b.liveCount + 1 } : Block α).dead = b.dead := by
    ext j
    rw [mem_dead, mem_dead]
    by_cases hj : j = b.highWater
    · subst hj
      simp [setSlot, setSkip]
    · simp only [setSlot, setSkip, Function.update_of_ne hj]
      constructor
      · rintro ⟨h1, h2⟩
        exact ⟨by omega, h2⟩
      · rintro ⟨h1, h2⟩
        exact ⟨by omega, h2⟩
  refine h.of_inserted hins (by simp only; omega) ?_ ?_ ?_ ?_
  · intro j hj
    have hjw : j = b.highWater := by simpa using hj
    subst hjw
    simp [setSlot, setSkip]
  · intro a n hr
    rw [hdead] at hr
    have hbound := h.run_bounded hr
    have hpos := hr.pos
    have hlen := h.lengths a n hr
    simp only [setSlot, setSkip]
    rw [Function.update_of_ne (by omega), Function.update_of_ne (by omega)]
    exact hlen
  · rw [hfl]
    exact ⟨hf, List.nodup_nil, trivial, by simp⟩
  · rw [hdead]
    exact h.runs

/-- The skip field after the first slot of the run of length `n` at `a` was taken. -/
def reusedSkip (b : Block α) (a n j : ℕ) : ℕ :=
  if j = a then 0 else if 1 < n ∧ (j = a + 1 ∨ j = a + n - 1) then n - 1 else b.skip j

theorem reusedSkip_ne_zero {a n : ℕ} (hrun : IsRun b.dead a n) (hj : j ≠ a) :
    b.reusedSkip a n j ≠ 0 ↔ b.skip j ≠ 0 := by
  unfold reusedSkip
  rw [if_neg hj]
  split_ifs with hend
  · have hd : j ∈ b.dead := hrun.mem j (by omega) (by omega)
    exact ⟨fun _ => hd.2, fun _ => by omega⟩
  · exact Iff.rfl

theorem reusedSkip_of_outside {a n : ℕ} (hpos : 0 < n) (hj : j < a ∨ a + n ≤ j) :
    b.reusedSkip a n j = b.skip j := by
  unfold reusedSkip
  rw [if_neg (by omega), if_neg (by omega)]

/-- The first slot of the dead run at the head of the free list is taken. -/
theorem Ok.reused {k : Block α} {a n : ℕ} {tl fl' : List ℕ} (h : b.Ok (a :: tl)) (hrun : IsRun b.dead a n)
    (hcap : k.capacity = b.capacity) (hw : k.highWater = b.highWater)
    (hc : k.liveCount = b.liveCount + 1) (hs : ∀ j, k.skip j = b.reusedSkip a n j)
    (helem : k.slots a = .element v) (hframe : ∀ j ∈ b.live, k.slots j = b.slots j)
    (hfree : k.FreeList fl') (hfl : fl' = if n = 1 then tl else (a + 1) :: tl) :
    Inserted b k a v ∧ k.Ok fl' := by
  have hpos := hrun.pos
  have hbound := h.run_bounded hrun
  have hnotin : a ∉ tl := (List.nodup_cons.mp h.free.nodup).1
  have hsa : k.skip a = 0 := by simp [hs, reusedSkip]
  have hsupport : ∀ j, j ≠ a → (k.skip j ≠ 0 ↔ b.skip j ≠ 0) := fun j hj => by
    rw [hs]
    exact reusedSkip_ne_zero hrun hj
  have hins : Inserted b k a v := by
    refine ⟨hcap, fun hm => hrun.start_mem.2 (mem_live.mp hm).2, fun j => ?_, hc, helem, hframe⟩
    rw [mem_live, mem_live, hw]
    by_cases hj : j = a
    · subst hj
      simp [hsa, hrun.start_mem.1]
    · have hiff : k.skip j = 0 ↔ b.skip j = 0 := not_iff_not.mp (hsupport j hj)
      simp [hiff, hj]
  have hdead : k.dead = b.dead \ {a} := by
    ext j
    rw [Set.mem_sdiff, mem_dead, mem_dead, hw, Set.mem_singleton_iff]
    by_cases hj : j = a
    · subst hj
      simp [hsa]
    · rw [hsupport j hj]
      tauto
  -- the run loses its first slot, and all others stay
  have hruns : ∀ c m, IsRun k.dead c m ↔
      (c = a + 1 ∧ m + 1 = n ∧ 0 < m) ∨ (IsRun b.dead c m ∧ c ≠ a) := by
    intro c m
    rw [hdead, hrun.drop_first_iff]
  refine ⟨hins, h.of_inserted hins (by rw [hw]; exact h.bounded) ?_ ?_ hfree ?_⟩
  · intro j hj
    rw [hw] at hj
    rw [hs, reusedSkip_of_outside hpos (by omega)]
    exact h.last j hj
  · intro c m hr
    rcases (hruns c m).mp hr with ⟨rfl, hm, hm0⟩ | ⟨hr, hca⟩
    · have h1 : b.reusedSkip a n (a + 1) = n - 1 := by
        unfold reusedSkip
        rw [if_neg (by omega), if_pos ⟨by omega, .inl rfl⟩]
      have h2 : b.reusedSkip a n (a + 1 + m - 1) = n - 1 := by
        unfold reusedSkip
        rw [if_neg (by omega), if_pos ⟨by omega, .inr (by omega)⟩]
      rw [hs, hs, h1, h2]
      omega
    · -- a run other than the one at `a` lies outside of it
      have hcpos := hr.pos
      have hout : ∀ j, c ≤ j → j < c + m → j < a ∨ a + n ≤ j := by
        intro j h1 h2
        by_contra hin
        exact hca (hr.eq_of_mem hrun h1 h2 (by omega) (by omega)).1
      rw [hs, hs, reusedSkip_of_outside hpos (hout c (le_refl c) (by omega)),
        reusedSkip_of_outside hpos (hout (c + m - 1) (by omega) (by omega))]
      exact h.lengths c m hr
  · intro c
    have htl : c ∈ tl ↔ (∃ m, IsRun b.dead c m) ∧ c ≠ a := by
      constructor
      · intro hc
        exact ⟨(h.runs c).mp (List.mem_cons_of_mem a hc), fun hx => hnotin (hx ▸ hc)⟩
      · rintro ⟨hm, hca⟩
        exact (List.mem_cons.mp ((h.runs c).mpr hm)).resolve_left hca
    by_cases h1 : n = 1
    · rw [hfl, if_pos h1, htl]
      constructor
      · rintro ⟨⟨m, hm⟩, hca⟩
        exact ⟨m, (hruns c m).mpr (.inr ⟨hm, hca⟩)⟩
      · rintro ⟨m, hm⟩
        rcases (hruns c m).mp hm with ⟨-, h2, h3⟩ | ⟨hm, hca⟩
        · omega
        · exact ⟨⟨m, hm⟩, hca⟩
    · rw [hfl, if_neg h1, List.mem_cons, htl]
      constructor
      · rintro (rfl | ⟨⟨m, hm⟩, hca⟩)
        · exact ⟨n - 1, (hruns _ _).mpr (.inl ⟨rfl, by omega, by omega⟩)⟩
        · exact ⟨m, (hruns c m).mpr (.inr ⟨hm, hca⟩)⟩
      · rintro ⟨m, hm⟩
        rcases (hruns c m).mp hm with ⟨hca, -, -⟩ | ⟨hm, hca⟩
        · exact .inl hca
        · exact .inr ⟨⟨m, hm⟩, hca⟩

theorem emplaceCommit_reuse {a : ℕ} (h : b.Ok fl) (hf : b.freeHead = some a) (v : α) :
    Inserted b (b.emplaceCommit v) a v ∧ ∃ fl', (b.emplaceCommit v).Ok fl' := by
  obtain ⟨tl, rfl⟩ : ∃ tl, fl = a :: tl := by
    have hhead := h.free.head
    rw [hf] at hhead
    cases fl with
    | nil => cases hhead
    | cons x tl =>
      cases hhead
      exact ⟨tl, rfl⟩
  obtain ⟨n, hrun⟩ := (h.runs a).mp List.mem_cons_self
  have hpos := hrun.pos
  have hbound := h.run_bounded hrun
  obtain ⟨hskip, -⟩ := h.lengths a n hrun
  have hnotin : a ∉ tl := (List.nodup_cons.mp h.free.nodup).1
  have hsmall : a + n < 65535 := by
    have h1 := h.bounded
    have h2 := h.small
    omega
  have hlive : ∀ j ∈ b.live, j ∉ tl ∧ ¬(a ≤ j ∧ j < a + n) := by
    intro j hj
    refine ⟨fun hm => ?_, fun hin => ?_⟩
    · exact (h.mem_free_dead (List.mem_cons_of_mem a hm)).2 (mem_live.mp hj).2
    · exact (hrun.mem j hin.1 hin.2).2 (mem_live.mp hj).2
  -- the free list without its head, after the element went into its slot
  have hpieces : ∀ k : ℕ → ℕ, ({ b.setSlot a (.element v) with skip := k } : Block α).Pieces
      (b.readFreeLinks a) [] tl := by
    intro k
    have hfree : b.FreeList ([] ++ a :: tl) := h.free
    refine hfree.pieces.congr rfl fun j hj => ?_
    have hne : j ≠ a := fun he => hnotin (he ▸ hj)
    simp [setSlot, hne]
  by_cases h1 : n = 1
  · have hp := hpieces (Function.update b.skip a 0)
    obtain ⟨hcap, hlc, hhw, hsk⟩ :=
      unlinkFreeRun_same ((b.setSlot a (.element v)).setSkip a 0) (b.readFreeLinks a)
    have he : b.emplaceCommit v =
        { ((b.setSlot a (.element v)).setSkip a 0).unlinkFreeRun (b.readFreeLinks a) with
          liveCount := b.liveCount + 1 } := by
      simp only [emplaceCommit, emplaceIndex, hf, hskip, h1, Option.getD_some, Option.isSome_some,
        if_true, hlc]
      rfl
    have hdone : Inserted b (b.emplaceCommit v) a v ∧ (b.emplaceCommit v).Ok tl := by
      rw [he]
      refine h.reused hrun hcap hhw rfl ?_ ?_ ?_ (hp.unlink.congr rfl fun _ _ => rfl) (by simp [h1])
      · intro j
        simp only [hsk]
        by_cases hj : j = a <;> simp [setSkip, setSlot, reusedSkip, hj, h1]
      · refine (hp.unlink_slots (by simpa using hnotin)).trans ?_
        simp [setSlot]
      · intro j hj
        have hne : j ≠ a := fun hx => (hlive j hj).2 (by omega)
        refine (hp.unlink_slots (by simpa using (hlive j hj).1)).trans ?_
        simp [setSlot, hne]
    exact ⟨hdone.1, tl, hdone.2⟩
  · have hp := hpieces (Function.update (Function.update (Function.update b.skip a 0) (a + 1) (n - 1))
      (a + n - 1) (n - 1))
    have hcast : toSlotIndexType (n - 1) = n - 1 := by
      unfold toSlotIndexType
      omega
    obtain ⟨hcap, hlc, hhw, hsk⟩ := moveFreeRun_same
      ((((b.setSlot a (.element v)).setSkip a 0).setSkip (a + 1) (n - 1)).setSkip (a + n - 1) (n - 1))
      (a + 1) (b.readFreeLinks a)
    have he : b.emplaceCommit v =
        { ((((b.setSlot a (.element v)).setSkip a 0).setSkip (a + 1) (n - 1)).setSkip (a + n - 1)
            (n - 1)).moveFreeRun (a + 1) (b.readFreeLinks a) with
          liveCount := b.liveCount + 1 } := by
      simp only [emplaceCommit, emplaceIndex, hf, hskip, h1, Option.getD_some, Option.isSome_some,
        if_true, if_false, hlc, hcast]
      rfl
    have hnot : a + 1 ∉ tl := by
      intro hm
      obtain ⟨m, hm⟩ := (h.runs (a + 1)).mp (List.mem_cons_of_mem a hm)
      exact hm.left a rfl hrun.start_mem
    have hdone : Inserted b (b.emplaceCommit v) a v ∧ (b.emplaceCommit v).Ok ((a + 1) :: tl) := by
      rw [he]
      refine h.reused hrun hcap hhw rfl ?_ ?_ ?_
        ((hp.move (by omega) (by simpa using hnot)).congr rfl fun _ _ => rfl) (by simp [h1])
      · intro j
        simp only [hsk]
        simp only [setSkip, setSlot, reusedSkip, Function.update_apply]
        split_ifs <;> first | rfl | omega
      · refine (hp.move_slots (by simpa using hnotin) (by omega)).trans ?_
        simp [setSlot]
      · intro j hj
        have hin := (hlive j hj).2
        have hne : j ≠ a := fun hx => hin (by omega)
        refine (hp.move_slots (by simpa using (hlive j hj).1) (by omega)).trans ?_
        simp [setSlot, hne]
    exact ⟨hdone.1, _, hdone.2⟩

/-- `emplace` in an available block adds one live slot and keeps the block good. -/
theorem emplaceCommit_ok (h : b.Ok fl) (ha : b.Available) (v : α) :
    Inserted b (b.emplaceCommit v) b.emplaceIndex v ∧ ∃ fl', (b.emplaceCommit v).Ok fl' := by
  cases hf : b.freeHead with
  | none =>
    have hroom : b.highWater < b.capacity := by simpa [Available, hf] using ha
    obtain ⟨h1, h2⟩ := emplaceCommit_append h hf hroom v
    rw [emplaceIndex, hf]
    exact ⟨h1, fl, h2⟩
  | some a =>
    rw [emplaceIndex, hf]
    exact emplaceCommit_reuse h hf v

/-- A construction that throws leaves nothing behind but bytes above `high_water`. -/
theorem emplaceFailed_eq (h : b.Ok fl) :
    b.emplaceFailed = b ∨ b.freeHead = none ∧ b.emplaceFailed = b.setSlot b.highWater .raw := by
  cases hf : b.freeHead with
  | none =>
    right
    simp [emplaceFailed, emplaceIndex, hf]
  | some a =>
    left
    have hmem : a ∈ fl := by
      have hhead := h.free.head
      rw [hf] at hhead
      exact List.mem_of_head? hhead.symm
    obtain ⟨l, hl⟩ := h.free.stored a hmem
    have hread : b.readFreeLinks a = l := by simp [readFreeLinks, hl]
    have hslots : Function.update b.slots a (.links l) = b.slots := by
      rw [← hl]
      exact Function.update_eq_self a b.slots
    simp only [emplaceFailed, emplaceIndex, hf, hread, writeFreeLinks, setSlot, Option.getD_some,
      Option.isSome_some, if_true, Function.update_idem, hslots]
    rw [← hf]

/-! ## Erasure -/

/-- `b'` has all live slots of `b` but `i`. -/
structure Erased (b b' : Block α) (i : ℕ) : Prop where
  capacity : b'.capacity = b.capacity
  live : ∀ j, j ∈ b'.live ↔ j ∈ b.live ∧ j ≠ i
  count : b'.liveCount = b.liveCount - 1
  frame : ∀ j ∈ b'.live, b'.slots j = b.slots j

theorem Erased.live_eq (h : Erased b b' i) : b'.live = b.live.filter (· ≠ i) := by
  unfold Block.live
  rw [List.filter_filter]
  refine filter_range_congr fun j => ?_
  have hj := h.live j
  rw [mem_live, mem_live] at hj
  simp only [Bool.and_eq_true, decide_eq_true_eq]
  tauto

theorem Erased.live_length (h : Erased b b' i) (hi : i ∈ b.live) :
    b'.live.length = b.live.length - 1 := by
  have he : b.live.filter (· ≠ i) = b.live.erase i := by
    rw [live_nodup.erase_eq_filter]
    refine List.filter_congr fun x _ => ?_
    by_cases hx : x = i <;> simp [hx]
  rw [h.live_eq, he, List.length_erase_of_mem hi]

theorem Ok.of_erased {fl' : List ℕ} (h : b.Ok fl) (hi : i ∈ b.live) (he : Erased b b' i)
    (hw : b'.highWater ≤ b.capacity) (hlast : ∀ i, i + 1 = b'.highWater → b'.skip i = 0)
    (hlen : ∀ a n, IsRun b'.dead a n → b'.skip a = n ∧ b'.skip (a + n - 1) = n)
    (hfree : b'.FreeList fl') (hruns : ∀ a, a ∈ fl' ↔ ∃ n, IsRun b'.dead a n) : b'.Ok fl' := by
  refine h.intro he.capacity hw hlast hlen hfree hruns ?_ ?_
  · rw [he.count, h.count, he.live_length hi]
  · intro j h1 h2
    have hj : j ∈ b'.live := mem_live.mpr ⟨h1, h2⟩
    obtain ⟨h3, h4⟩ := mem_live.mp ((he.live j).mp hj).1
    rw [he.frame j hj]
    exact h.elements j h3 h4

/-- The slot just below `high_water` goes, and no dead run ends before it. -/
theorem eraseLast_plain (h : b.Ok fl) (hi : i + 1 = b.highWater) (hs : b.skip i = 0)
    (hcap : b'.capacity = b.capacity) (hc : b'.liveCount = b.liveCount - 1)
    (hw : b'.highWater = i) (hskip : b'.skip = b.skip) (hslots : ∀ j, j < i → b'.slots j = b.slots j)
    (hfree : b'.FreeList fl) (hlast : ∀ j, j + 1 = i → b.skip j = 0) :
    Erased b b' i ∧ b'.Ok fl := by
  have he : Erased b b' i := by
    refine ⟨hcap, fun j => ?_, hc, fun j hj => hslots j ?_⟩
    · rw [mem_live, mem_live, hw, hskip]
      constructor
      · rintro ⟨h1, h2⟩
        exact ⟨⟨by omega, h2⟩, by omega⟩
      · rintro ⟨⟨h1, h2⟩, h3⟩
        exact ⟨by omega, h2⟩
    · have hlt := (mem_live.mp hj).1
      omega
  have hdead : b'.dead = b.dead := by
    ext j
    rw [mem_dead, mem_dead, hw, hskip]
    constructor
    · rintro ⟨h1, h2⟩
      exact ⟨by omega, h2⟩
    · rintro ⟨h1, h2⟩
      have hne : j ≠ i := fun hx => h2 (hx ▸ hs)
      exact ⟨by omega, h2⟩
  refine ⟨he, h.of_erased (mem_live.mpr ⟨by omega, hs⟩) he ?_ ?_ ?_ hfree ?_⟩
  · have hb := h.bounded
    omega
  · intro j hj
    rw [hskip]
    exact hlast j (by omega)
  · rw [hdead, hskip]
    exact h.lengths
  · rw [hdead]
    exact h.runs

/-- The slot just below `high_water` goes together with the dead run before it. -/
theorem eraseLast_run {a n : ℕ} {l₁ l₂ : List ℕ} (h : b.Ok (l₁ ++ a :: l₂))
    (hi : i + 1 = b.highWater) (hs : b.skip i = 0) (hrun : IsRun b.dead a n) (hend : a + n = i)
    (hcap : b'.capacity = b.capacity) (hc : b'.liveCount = b.liveCount - 1)
    (hw : b'.highWater = a) (hskip : b'.skip = b.skip) (hslots : ∀ j ∈ b.live, j < a → b'.slots j = b.slots j)
    (hfree : b'.FreeList (l₁ ++ l₂)) : Erased b b' i ∧ b'.Ok (l₁ ++ l₂) := by
  have hpos := hrun.pos
  have he : Erased b b' i := by
    refine ⟨hcap, fun j => ?_, hc, fun j hj => ?_⟩
    · rw [mem_live, mem_live, hw, hskip]
      constructor
      · rintro ⟨h1, h2⟩
        exact ⟨⟨by omega, h2⟩, by omega⟩
      · rintro ⟨⟨h1, h2⟩, h3⟩
        refine ⟨?_, h2⟩
        by_contra hge
        exact (hrun.mem j (by omega) (by omega)).2 h2
    · obtain ⟨h1, h2⟩ := mem_live.mp hj
      rw [hw] at h1
      rw [hskip] at h2
      exact hslots j (mem_live.mpr ⟨by omega, h2⟩) h1
  have hdead : ∀ j, j ∈ b'.dead ↔ j ∈ b.dead ∧ ¬(a ≤ j ∧ j < a + n) := by
    intro j
    rw [mem_dead, mem_dead, hw, hskip]
    constructor
    · rintro ⟨h1, h2⟩
      exact ⟨⟨by omega, h2⟩, by omega⟩
    · rintro ⟨⟨h1, h2⟩, h3⟩
      have hne : j ≠ i := fun hx => h2 (hx ▸ hs)
      exact ⟨by omega, h2⟩
  have hruns : ∀ c m, IsRun b'.dead c m ↔ IsRun b.dead c m ∧ c ≠ a := fun c m =>
    hrun.remove_iff hdead
  have hnodup := h.free.nodup
  rw [List.nodup_middle, List.nodup_cons] at hnodup
  refine ⟨he, h.of_erased (mem_live.mpr ⟨by omega, hs⟩) he ?_ ?_ ?_ hfree ?_⟩
  · have hb := h.bounded
    omega
  · intro j hj
    rw [hskip]
    by_contra hne
    exact hrun.left j (by omega) ⟨by omega, hne⟩
  · intro c m hr
    rw [hskip]
    exact h.lengths c m ((hruns c m).mp hr).1
  · intro c
    have hmem : c ∈ l₁ ++ a :: l₂ ↔ c ∈ l₁ ++ l₂ ∨ c = a := by simp; tauto
    constructor
    · intro hc
      obtain ⟨m, hm⟩ := (h.runs c).mp (hmem.mpr (.inl hc))
      exact ⟨m, (hruns c m).mpr ⟨hm, fun hx => hnodup.1 (hx ▸ hc)⟩⟩
    · rintro ⟨m, hm⟩
      obtain ⟨hm, hca⟩ := (hruns c m).mp hm
      exact (hmem.mp ((h.runs c).mpr ⟨m, hm⟩)).resolve_right hca

/-- An inner slot goes: it joins the `l` dead slots before it and the `r` behind it. -/
theorem Ok.merged {l r : ℕ} {fl' : List ℕ} (h : b.Ok fl) (hi : i + 1 < b.highWater)
    (hs : b.skip i = 0) (hl : IsRun.LeftOf b.dead i l) (hr : IsRun.RightOf b.dead i r)
    (hcap : b'.capacity = b.capacity) (hc : b'.liveCount = b.liveCount - 1)
    (hw : b'.highWater = b.highWater) (hfirst : b'.skip (i - l) = l + r + 1)
    (hlastSkip : b'.skip (i + r) = l + r + 1) (hnz : b'.skip i ≠ 0)
    (hskip : ∀ j, j ≠ i - l → j ≠ i + r → j ≠ i → b'.skip j = b.skip j)
    (hslots : ∀ j ∈ b.live, j ≠ i → b'.slots j = b.slots j) (hfree : b'.FreeList fl')
    (hfl : ∀ c, c ∈ fl' ↔ c = i - l ∨ c ∈ fl ∧ c ≠ i - l ∧ c ≠ i + 1) :
    Erased b b' i ∧ b'.Ok fl' := by
  have hle := hl.1
  have hdead : b'.dead = insert i b.dead := by
    ext j
    rw [Set.mem_insert_iff, mem_dead, mem_dead, hw]
    by_cases hj : j = i
    · subst hj
      simp only [true_or, iff_true]
      exact ⟨by omega, hnz⟩
    · by_cases hj1 : j = i - l
      · subst hj1
        have hd := hl.2.1 (i - l) (le_refl _) (by omega)
        have hne : b'.skip (i - l) ≠ 0 := by omega
        constructor
        · rintro ⟨h1, -⟩
          exact .inr hd
        · intro _
          exact ⟨hd.1, hne⟩
      · by_cases hj2 : j = i + r
        · subst hj2
          have hd := hr.1 (i + r) (by omega) (le_refl _)
          have hne : b'.skip (i + r) ≠ 0 := by omega
          constructor
          · rintro ⟨h1, -⟩
            exact .inr hd
          · intro _
            exact ⟨hd.1, hne⟩
        · rw [hskip j hj1 hj2 hj]
          tauto
  have hnd : i ∉ b.dead := fun hm => hm.2 hs
  have hlive : ∀ j, j ∈ b'.live ↔ j ∈ b.live ∧ j ≠ i := by
    intro j
    have hiff : j ∈ b'.dead ↔ j = i ∨ j ∈ b.dead := by rw [hdead, Set.mem_insert_iff]
    rw [mem_dead, mem_dead, hw] at hiff
    rw [mem_live, mem_live, hw]
    by_cases hj : j < b.highWater
    · simp only [hj, true_and] at hiff ⊢
      have := not_iff_not.mpr hiff
      simp only [ne_eq, Decidable.not_not, not_or] at this
      tauto
    · simp [hj]
  have he : Erased b b' i := ⟨hcap, hlive, hc, fun j hj =>
    hslots j ((hlive j).mp hj).1 ((hlive j).mp hj).2⟩
  have hruns : ∀ c m, IsRun b'.dead c m ↔ (c = i - l ∧ m = l + r + 1) ∨
      (IsRun b.dead c m ∧ (c + m < i ∨ i + 1 < c)) := by
    intro c m
    rw [hdead, IsRun.insert_iff hl hr]
  refine ⟨he, h.of_erased (mem_live.mpr ⟨by omega, hs⟩) he (by rw [hw]; exact h.bounded) ?_ ?_
    hfree ?_⟩
  · intro j hj
    rw [hw] at hj
    have hlast := h.last j hj
    have hr1 : i + r < j := by
      by_contra hge
      have hd := hr.1 j (by omega) (by omega)
      exact hd.2 hlast
    rw [hskip j (by omega) (by omega) (by omega)]
    exact hlast
  · intro c m hrun
    rcases (hruns c m).mp hrun with ⟨rfl, rfl⟩ | ⟨hrun, hout⟩
    · rw [hfirst, show i - l + (l + r + 1) - 1 = i + r by omega, hlastSkip]
      exact ⟨rfl, rfl⟩
    · -- a run that does not touch `i` keeps away from both ends of the new run
      have hpos := hrun.pos
      have hapart : ∀ j, c ≤ j → j < c + m → j ≠ i - l ∧ j ≠ i + r ∧ j ≠ i := by
        intro j h1 h2
        refine ⟨fun hx => ?_, fun hx => ?_, by omega⟩
        · have hin : c + m ∈ b.dead := hl.2.1 (c + m) (by omega) (by omega)
          exact hrun.right hin
        · have hin : c - 1 ∈ b.dead := hr.1 (c - 1) (by omega) (by omega)
          exact hrun.left (c - 1) (by omega) hin
      have h1 := hapart c (le_refl c) (by omega)
      have h2 := hapart (c + m - 1) (by omega) (by omega)
      rw [hskip c h1.1 h1.2.1 h1.2.2, hskip _ h2.1 h2.2.1 h2.2.2]
      exact h.lengths c m hrun
  · intro c
    rw [hfl c, h.runs c]
    constructor
    · rintro (rfl | ⟨⟨m, hm⟩, h1, h2⟩)
      · exact ⟨_, (hruns _ _).mpr (.inl ⟨rfl, rfl⟩)⟩
      · refine ⟨m, (hruns c m).mpr (.inr ⟨hm, ?_⟩)⟩
        have hpos := hm.pos
        by_contra hin
        -- the run would end right before `i`, so start at `i - l`
        have hend : c + m = i := by
          have hnot : ¬(c ≤ i ∧ i < c + m) := fun hx => hnd (hm.mem i hx.1 hx.2)
          omega
        rcases Nat.lt_or_ge m l with hlt | hge
        · exact hm.left (c - 1) (by omega) (hl.2.1 (c - 1) (by omega) (by omega))
        · exact hl.2.2 (i - l - 1) (by omega) (hm.mem _ (by omega) (by omega))
    · rintro ⟨m, hm⟩
      rcases (hruns c m).mp hm with ⟨hx, -⟩ | ⟨hm, hout⟩
      · exact .inl hx
      · have hpos := hm.pos
        refine .inr ⟨⟨m, hm⟩, fun hx => ?_, by omega⟩
        by_cases hl0 : l = 0
        · omega
        · have hin : c + m ∈ b.dead := hl.2.1 (c + m) (by omega) (by omega)
          exact hm.right hin

/-- The block while a slot is erased: the element is destroyed and counted out. -/
def destroyed (b : Block α) (i : ℕ) : Block α :=
  { b.setSlot i .raw with liveCount := b.liveCount - 1 }

theorem destroyed_slots (hij : j ≠ i) : (b.destroyed i).slots j = b.slots j := by
  simp [destroyed, setSlot, hij]

/-- The free list only holds dead slots, so the destruction of a live one keeps it. -/
theorem Ok.destroyed_free (h : b.Ok fl) (hi : i ∈ b.live) : (b.destroyed i).FreeList fl := by
  have hne : ∀ a ∈ fl, a ≠ i := fun a ha he => h.live_notMem hi (he ▸ ha)
  have hs : ∀ a ∈ fl, (b.destroyed i).slots a = b.slots a := fun a ha =>
    destroyed_slots (hne a ha)
  refine ⟨h.free.head, h.free.nodup, h.free.seg.congr ?_ ?_, fun a ha => ?_⟩
  · intro a ha
    simp [freeLinks, readFreeLinks, hs a ha]
  · intro a ha
    simp [freeLinks, readFreeLinks, hs a ha]
  · rw [hs a ha]
    exact h.free.stored a ha

theorem eraseLast_ok (h : b.Ok fl) (hi : i ∈ b.live) (hlast : i + 1 = b.highWater) :
    Erased b ((b.destroyed i).eraseLast i) i ∧ ∃ fl', ((b.destroyed i).eraseLast i).Ok fl' := by
  obtain ⟨hlt, hs⟩ := mem_live.mp hi
  have hnd : i ∉ b.dead := fun hm => hm.2 hs
  have hfree := h.destroyed_free hi
  by_cases hrun : i ≠ 0 ∧ b.skip (i - 1) ≠ 0
  · obtain ⟨hle, hr⟩ := h.left_run hnd hlt hrun.2
    obtain ⟨l₁, l₂, rfl⟩ := List.append_of_mem ((h.runs _).mpr ⟨_, hr⟩)
    have hp : ({ b.destroyed i with highWater := i } : Block α).Pieces
        ((b.destroyed i).readFreeLinks (i - b.skip (i - 1))) l₁ l₂ :=
      hfree.pieces.congr rfl fun _ _ => rfl
    obtain ⟨hcap, hlc, -, hsk⟩ := unlinkFreeRun_same ({ b.destroyed i with highWater := i })
      ((b.destroyed i).readFreeLinks (i - b.skip (i - 1)))
    have he : (b.destroyed i).eraseLast i =
        { ({ b.destroyed i with highWater := i } : Block α).unlinkFreeRun
          ((b.destroyed i).readFreeLinks (i - b.skip (i - 1))) with
          highWater := i - b.skip (i - 1) } := if_pos hrun
    have hdone : Erased b ((b.destroyed i).eraseLast i) i ∧
        ((b.destroyed i).eraseLast i).Ok (l₁ ++ l₂) := by
      rw [he]
      refine eraseLast_run h hlast hs hr (by omega) hcap hlc rfl hsk ?_ (hp.unlink.congr rfl fun _ _ => rfl)
      intro j hj hji
      refine (hp.unlink_slots fun hm => ?_).trans (destroyed_slots (by omega))
      exact h.live_notMem hj (by rw [List.mem_append] at hm ⊢; simp only [List.mem_cons]; tauto)
    exact ⟨hdone.1, _, hdone.2⟩
  · have he : (b.destroyed i).eraseLast i = { b.destroyed i with highWater := i } := if_neg hrun
    have hdone : Erased b ((b.destroyed i).eraseLast i) i ∧
        ((b.destroyed i).eraseLast i).Ok fl := by
      rw [he]
      refine eraseLast_plain h hlast hs rfl rfl rfl rfl (fun j hj => destroyed_slots (by omega))
        (hfree.congr rfl fun _ _ => rfl) fun j hj => ?_
      by_contra hne
      refine hrun ⟨by omega, ?_⟩
      rw [show i - 1 = j by omega]
      exact hne
    exact ⟨hdone.1, _, hdone.2⟩

/-- What a list without one of its elements holds. -/
theorem mem_without {a c : ℕ} {l₁ l₂ : List ℕ} (hn : (l₁ ++ a :: l₂).Nodup) :
    c ∈ l₁ ++ l₂ ↔ c ∈ l₁ ++ a :: l₂ ∧ c ≠ a := by
  rw [List.nodup_middle, List.nodup_cons] at hn
  constructor
  · intro hc
    refine ⟨?_, fun he => hn.1 (he ▸ hc)⟩
    rcases List.mem_append.mp hc with hc | hc
    · exact List.mem_append_left _ hc
    · exact List.mem_append_right _ (List.mem_cons_of_mem a hc)
  · rintro ⟨hc, hne⟩
    rcases List.mem_append.mp hc with hc | hc
    · exact List.mem_append_left _ hc
    · exact List.mem_append_right _ ((List.mem_cons.mp hc).resolve_left hne)

theorem mem_middle {a c : ℕ} {l₁ l₂ : List ℕ} : c ∈ l₁ ++ a :: l₂ ↔ c = a ∨ c ∈ l₁ ++ l₂ := by
  rw [List.perm_middle.mem_iff, List.mem_cons]

/-- A live slot below others, with the `l` dead slots before it and the `r` behind it. -/
structure Between (b : Block α) (fl : List ℕ) (i l r : ℕ) : Prop where
  good : b.Ok fl
  live : i ∈ b.live
  inner : i + 1 < b.highWater
  left : IsRun.LeftOf b.dead i l
  right : IsRun.RightOf b.dead i r
  leftFree : l ≠ 0 → i - l ∈ fl
  rightFree : r ≠ 0 → i + 1 ∈ fl
  rightLive : r = 0 → i + 1 ∉ fl

theorem Ok.between (h : b.Ok fl) (hi : i ∈ b.live) (hinner : i + 1 < b.highWater) :
    Between b fl i (if i = 0 then 0 else b.skip (i - 1)) (b.skip (i + 1)) := by
  obtain ⟨hlt, hs⟩ := mem_live.mp hi
  have hnd : i ∉ b.dead := fun hm => hm.2 hs
  refine ⟨h, hi, hinner, h.leftOf hnd hlt, h.rightOf hnd hinner, ?_, fun hne => ?_, fun h0 hm => ?_⟩
  · split_ifs with h0
    · exact fun hne => absurd rfl hne
    · exact fun hne => (h.runs _).mpr ⟨_, (h.left_run hnd hlt hne).2⟩
  · exact (h.runs _).mpr ⟨_, h.right_run hnd hinner hne⟩
  · exact (h.mem_free_dead hm).2 h0

namespace Between

variable {l r : ℕ}

theorem small (hb : Between b fl i l r) : i < 65535 := by
  have hw := hb.good.bounded
  have hc := hb.good.small
  have hi := hb.inner
  omega

/-- No neighbour is dead: a new run of length one. -/
theorem alone (hb : Between b fl i l r) (hl0 : l = 0) (hr0 : r = 0) :
    Erased b (((b.destroyed i).setSkip i 1).pushFreeRun i) i ∧
      ∃ fl', (((b.destroyed i).setSkip i 1).pushFreeRun i).Ok fl' := by
  have h := hb.good
  have hnot : i ∉ fl := h.live_notMem hb.live
  have hright := hb.rightLive hr0
  have hfree : ((b.destroyed i).setSkip i 1).FreeList fl :=
    (h.destroyed_free hb.live).congr rfl fun _ _ => rfl
  have hp := hfree.push fun j hj => h.free_small hj
  have hsame : SameSkip ((b.destroyed i).setSkip i 1)
      (((b.destroyed i).setSkip i 1).pushFreeRun i) := moveFreeRun_same _ _ _
  have hdone : Erased b (((b.destroyed i).setSkip i 1).pushFreeRun i) i ∧
      (((b.destroyed i).setSkip i 1).pushFreeRun i).Ok (i :: fl) := by
    refine h.merged hb.inner (mem_live.mp hb.live).2 hb.left hb.right hsame.capacity hsame.liveCount
      hsame.highWater ?_ ?_ ?_ ?_ ?_ (hp.move hb.small hnot) ?_
    · rw [hsame.skip]
      simp [setSkip, hl0, hr0]
    · rw [hsame.skip]
      simp [setSkip, hl0, hr0]
    · rw [hsame.skip]
      simp [setSkip]
    · intro j _ _ hj
      rw [hsame.skip]
      simp [setSkip, hj, destroyed, setSlot]
    · intro j hj hji
      exact (hp.move_slots (h.live_notMem hj) hji).trans (destroyed_slots hji)
    · intro c
      simp only [hl0, List.mem_cons, Nat.sub_zero]
      constructor
      · rintro (hc | hc)
        · exact .inl hc
        · exact .inr ⟨hc, fun he => hnot (he ▸ hc), fun he => hright (he ▸ hc)⟩
      · rintro (hc | hc)
        · exact .inl hc
        · exact .inr hc.1
  exact ⟨hdone.1, _, hdone.2⟩

/-- The run before grows by the slot. -/
theorem behindRun (hb : Between b fl i l r) (hl0 : l ≠ 0) (hr0 : r = 0) :
    Erased b (((b.destroyed i).setSkip (i - l) (l + r + 1)).setSkip i (l + r + 1)) i ∧
      ∃ fl', (((b.destroyed i).setSkip (i - l) (l + r + 1)).setSkip i (l + r + 1)).Ok fl' := by
  have h := hb.good
  have hle := hb.left.1
  have hne : i - l ≠ i := by omega
  have hmem := hb.leftFree hl0
  have hright := hb.rightLive hr0
  have hdone : Erased b (((b.destroyed i).setSkip (i - l) (l + r + 1)).setSkip i (l + r + 1)) i ∧
      (((b.destroyed i).setSkip (i - l) (l + r + 1)).setSkip i (l + r + 1)).Ok fl := by
    refine h.merged hb.inner (mem_live.mp hb.live).2 hb.left hb.right rfl rfl rfl ?_ ?_ ?_ ?_ ?_
      ((h.destroyed_free hb.live).congr rfl fun _ _ => rfl) ?_
    · simp [setSkip, hne]
    · simp [setSkip, hr0]
    · simp [setSkip]
    · intro j h1 h2 h3
      simp [setSkip, h1, h3, destroyed, setSlot]
    · exact fun j hj hji => destroyed_slots hji
    · intro c
      constructor
      · intro hc
        by_cases hcl : c = i - l
        · exact .inl hcl
        · exact .inr ⟨hc, hcl, fun he => hright (he ▸ hc)⟩
      · rintro (hc | hc)
        · exact hc ▸ hmem
        · exact hc.1
  exact ⟨hdone.1, _, hdone.2⟩

/-- The run behind moves down to the slot. -/
theorem beforeRun (hb : Between b fl i l r) (hl0 : l = 0) (hr0 : r ≠ 0) :
    let b' := (((b.destroyed i).setSkip i (l + r + 1)).setSkip (i + r) (l + r + 1)).moveFreeRun i
      ((b.destroyed i).readFreeLinks (i + 1))
    Erased b b' i ∧ ∃ fl', b'.Ok fl' := by
  have h := hb.good
  have hfree := h.destroyed_free hb.live
  obtain ⟨l₁, l₂, rfl⟩ := List.append_of_mem (hb.rightFree hr0)
  have hnot := h.live_notMem hb.live
  have hmem : ∀ c, c ∈ l₁ ++ l₂ ↔ c ∈ l₁ ++ (i + 1) :: l₂ ∧ c ≠ i + 1 :=
    fun c => mem_without h.free.nodup
  have hlive : ∀ j ∈ b.live, j ∉ l₁ ++ l₂ := fun j hj hm => h.live_notMem hj ((hmem j).mp hm).1
  have hp : (((b.destroyed i).setSkip i (l + r + 1)).setSkip (i + r) (l + r + 1)).Pieces
      ((b.destroyed i).readFreeLinks (i + 1)) l₁ l₂ := hfree.pieces.congr rfl fun _ _ => rfl
  have hsame := moveFreeRun_same (((b.destroyed i).setSkip i (l + r + 1)).setSkip (i + r)
    (l + r + 1)) i ((b.destroyed i).readFreeLinks (i + 1))
  have hdone := h.merged hb.inner (mem_live.mp hb.live).2 hb.left hb.right hsame.capacity
    hsame.liveCount hsame.highWater ?_ ?_ ?_ ?_ ?_ (hp.move hb.small (hlive i hb.live)) ?_
  · exact ⟨hdone.1, _, hdone.2⟩
  · rw [hsame.skip]
    simp [setSkip, hl0, Function.update_apply]
  · rw [hsame.skip]
    simp [setSkip]
  · rw [hsame.skip]
    simp [setSkip, Function.update_apply]
  · intro j h1 h2 h3
    rw [hsame.skip]
    simp [setSkip, h2, h3, destroyed, setSlot]
  · intro j hj hji
    exact (hp.move_slots (hlive j hj) hji).trans (destroyed_slots hji)
  · intro c
    rw [mem_middle, hmem c, hl0, Nat.sub_zero]
    constructor
    · rintro (hc | ⟨hc, hne⟩)
      · exact .inl hc
      · exact .inr ⟨hc, fun he => hnot (he ▸ hc), hne⟩
    · rintro (hc | hc)
      · exact .inl hc
      · exact .inr ⟨hc.1, hc.2.2⟩

/-- The slot joins both runs, and the free list loses the one behind. -/
theorem betweenRuns (hb : Between b fl i l r) (hl0 : l ≠ 0) (hr0 : r ≠ 0) :
    let b' := ((((b.destroyed i).setSkip (i - l) (l + r + 1)).setSkip (i + r) (l + r + 1)).setSkip i
      1).unlinkFreeRun ((b.destroyed i).readFreeLinks (i + 1))
    Erased b b' i ∧ ∃ fl', b'.Ok fl' := by
  have h := hb.good
  have hfree := h.destroyed_free hb.live
  have hle := hb.left.1
  have hin := hb.leftFree hl0
  obtain ⟨l₁, l₂, rfl⟩ := List.append_of_mem (hb.rightFree hr0)
  have hmem : ∀ c, c ∈ l₁ ++ l₂ ↔ c ∈ l₁ ++ (i + 1) :: l₂ ∧ c ≠ i + 1 :=
    fun c => mem_without h.free.nodup
  have hlive : ∀ j ∈ b.live, j ∉ l₁ ++ l₂ := fun j hj hm => h.live_notMem hj ((hmem j).mp hm).1
  have hne : i - l ≠ i := by omega
  have hne' : i - l ≠ i + r := by omega
  have hp : ((((b.destroyed i).setSkip (i - l) (l + r + 1)).setSkip (i + r) (l + r + 1)).setSkip i
      1).Pieces ((b.destroyed i).readFreeLinks (i + 1)) l₁ l₂ :=
    hfree.pieces.congr rfl fun _ _ => rfl
  have hsame := unlinkFreeRun_same ((((b.destroyed i).setSkip (i - l) (l + r + 1)).setSkip (i + r)
    (l + r + 1)).setSkip i 1) ((b.destroyed i).readFreeLinks (i + 1))
  have hdone := h.merged hb.inner (mem_live.mp hb.live).2 hb.left hb.right hsame.capacity
    hsame.liveCount hsame.highWater ?_ ?_ ?_ ?_ ?_ hp.unlink ?_
  · exact ⟨hdone.1, _, hdone.2⟩
  · rw [hsame.skip]
    simp [setSkip, hne, hne']
  · rw [hsame.skip]
    simp [setSkip, hr0]
  · rw [hsame.skip]
    simp [setSkip]
  · intro j h1 h2 h3
    rw [hsame.skip]
    simp [setSkip, h1, h2, h3, destroyed, setSlot]
  · intro j hj hji
    exact (hp.unlink_slots (hlive j hj)).trans (destroyed_slots hji)
  · intro c
    rw [hmem c]
    constructor
    · rintro ⟨hc, hne⟩
      by_cases hcl : c = i - l
      · exact .inl hcl
      · exact .inr ⟨hc, hcl, hne⟩
    · rintro (rfl | hc)
      · exact ⟨hin, by omega⟩
      · exact ⟨hc.1, hc.2.2⟩

/-- A run of dead slots is short enough for its stored length. -/
theorem length_lt (hb : Between b fl i l r) (hr : r = b.skip (i + 1)) : l + r + 1 < 65535 := by
  have h := hb.good
  have hle := hb.left.1
  have hw := h.bounded
  have hc := h.small
  have hi := hb.inner
  have hnd : i ∉ b.dead := fun hm => hm.2 (mem_live.mp hb.live).2
  by_cases h0 : b.skip (i + 1) = 0
  · omega
  · have hrun := h.run_bounded (h.right_run hnd hi h0)
    omega

end Between

theorem eraseInner_ok (h : b.Ok fl) (hi : i ∈ b.live) (hlast : i + 1 < b.highWater) :
    Erased b ((b.destroyed i).eraseInner i) i ∧ ∃ fl', ((b.destroyed i).eraseInner i).Ok fl' := by
  have hb := h.between hi hlast
  have hlen := hb.length_lt rfl
  have hskip : (b.destroyed i).skip = b.skip := rfl
  unfold eraseInner
  simp only [hskip]
  generalize (if i = 0 then 0 else b.skip (i - 1)) = l at hb hlen ⊢
  generalize b.skip (i + 1) = r at hb hlen ⊢
  have hcast : toSlotIndexType (l + r + 1) = l + r + 1 := by
    unfold toSlotIndexType
    omega
  rw [hcast]
  split
  · next hnone => exact hb.alone hnone.1 hnone.2
  · next hsome =>
    split
    · next hr0 => exact hb.behindRun (fun hl0 => hsome ⟨hl0, hr0⟩) hr0
    · next hr0 =>
      split
      · next hl0 => exact hb.beforeRun hl0 hr0
      · next hl0 => exact hb.betweenRuns hl0 hr0

/-- `erase` of a live slot removes it and keeps the block good. -/
theorem erase_ok (h : b.Ok fl) (hi : i ∈ b.live) :
    Erased b (b.erase i) i ∧ ∃ fl', (b.erase i).Ok fl' := by
  have hlt := (mem_live.mp hi).1
  by_cases hlast : i = b.highWater - 1
  · have he : b.erase i = (b.destroyed i).eraseLast i := if_pos hlast
    rw [he]
    exact eraseLast_ok h hi (by omega)
  · have he : b.erase i = (b.destroyed i).eraseInner i := if_neg hlast
    rw [he]
    exact eraseInner_ok h hi (by omega)

end CCForge.Hive.Block
