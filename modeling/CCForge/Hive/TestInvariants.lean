import CCForge.Hive.Traversal

/-!
# The self-check of a hive

`__test_invariants` walks over all blocks of a hive and checks their counts, their dead
runs, their free lists and all lists of the control. It succeeds on every hive that is
in order.
-/

namespace CCForge.Hive

variable {α : Type}

namespace Block

/-- The inner loop over a dead run: the first slot behind it. -/
def runEnd (k : Block α) : ℕ → ℕ → ℕ
  | 0, index => index
  | fuel + 1, index =>
    if index < k.highWater ∧ k.skip index ≠ 0 then k.runEnd fuel (index + 1) else index

/-- The scan of the skip field: the numbers of live slots and of dead runs. -/
def scan (k : Block α) : ℕ → ℕ → ℕ → ℕ → Option (ℕ × ℕ)
  | 0, _, _, _ => none
  | fuel + 1, index, live, runs =>
    if index < k.highWater then
      if k.skip index = 0 then k.scan fuel (index + 1) (live + 1) runs
      else
        let stop := k.runEnd k.highWater (index + 1)
        let length := stop - index
        if stop = k.highWater ∨ k.skip index ≠ length ∨ k.skip (stop - 1) ≠ length then none
        else k.scan fuel stop live (runs + 1)
    else some (live, runs)

/-- The walk over the free list from `start` on. -/
def testFree (k : Block α) (runs : ℕ) : ℕ → Option ℕ → Option ℕ → ℕ → Bool
  | 0, _, _, _ => false
  | _ + 1, none, _, nodes => nodes = runs
  | fuel + 1, some start, previousIndex, nodes =>
    if nodes = runs ∨ start ≥ k.highWater ∨ k.skip start = 0 ∨
        (start ≠ 0 ∧ k.skip (start - 1) ≠ 0) then false
    else
      let links := k.readFreeLinks start
      if toWideIndex links.previous ≠ previousIndex then false
      else k.testFree runs fuel (toWideIndex links.next) (some start) (nodes + 1)

end Block

namespace World

/-- What the loop over the active blocks has counted. -/
structure Tally where
  previousBlock : Option BlockId := none
  totalCapacity : ℕ := 0
  totalLive : ℕ := 0
  expectedAvailable : ℕ := 0
  activeCount : ℕ := 0

def validBlock (w : World α) (c : ControlId) (totalCapacity : ℕ) (b : BlockId) : Bool :=
  w.blockControl b = c ∧ (w.block b).capacity ≠ 0 ∧ (w.block b).capacity ≤ slotNpos ∧
    (w.block b).capacity ≤ (w.control c).capacity - totalCapacity ∧ w.heap (.block b) ∧
    w.heap (.slots b) ∧ w.heap (.skip b)

/-- The loop over the active blocks. -/
def testActive (w : World α) (c : ControlId) : ℕ → Option BlockId → Tally → Option Tally
  | 0, _, _ => none
  | _ + 1, none, t => some t
  | fuel + 1, some b, t =>
    let k := w.block b
    if ¬w.validBlock c t.totalCapacity b ∨ ¬w.active b ∨ (w.reservedNext b).isSome ∨
        w.activeLinks.prev b ≠ t.previousBlock ∨
        (t.previousBlock.any fun p => w.order p ≥ w.order b) ∨ k.liveCount = 0 ∨
        k.highWater = 0 ∨ k.highWater > k.capacity ∨ k.skip (k.highWater - 1) ≠ 0 then none
    else
      match k.scan (k.highWater + 1) 0 0 0 with
      | none => none
      | some (live, runs) =>
        if live ≠ k.liveCount ∨ live > (w.control c).size - t.totalLive then none
        else if ¬k.testFree runs (runs + 1) k.freeHead none 0 then none
        else if w.inAvailable b ≠ decide k.Available ∨ (¬k.Available ∧
            ((w.availableLinks.prev b).isSome ∨ (w.availableLinks.next b).isSome)) then none
        else
          w.testActive c fuel (w.activeLinks.next b)
            { previousBlock := some b
              totalCapacity := t.totalCapacity + k.capacity
              totalLive := t.totalLive + live
              expectedAvailable := t.expectedAvailable + if k.Available then 1 else 0
              activeCount := t.activeCount + 1 }

/-- The loop over the reserved blocks. -/
def testReserved (w : World α) (c : ControlId) : ℕ → Option BlockId → ℕ → Option ℕ
  | 0, _, _ => none
  | _ + 1, none, totalCapacity => some totalCapacity
  | fuel + 1, some b, totalCapacity =>
    let k := w.block b
    if ¬w.validBlock c totalCapacity b ∨ w.active b ∨ w.inAvailable b ∨ k.liveCount ≠ 0 ∨
        k.highWater ≠ 0 ∨ k.freeHead ≠ none ∨ (w.activeLinks.prev b).isSome ∨
        (w.activeLinks.next b).isSome ∨ (w.availableLinks.prev b).isSome ∨
        (w.availableLinks.next b).isSome then none
    else w.testReserved c fuel (w.reservedNext b) (totalCapacity + k.capacity)

/-- The search for a block on the active list, at most `n` blocks far. -/
def findActive (w : World α) (b : BlockId) : ℕ → Option BlockId → Option BlockId
  | 0, member => member
  | _ + 1, none => none
  | n + 1, some member =>
    if member ≠ b then w.findActive b n (w.activeLinks.next member) else some member

/-- The loop over the available blocks. -/
def testAvailable (w : World α) (c : ControlId) (t : Tally) :
    ℕ → Option BlockId → Option BlockId → ℕ → Bool
  | 0, _, _, _ => false
  | _ + 1, none, _, availableCount => availableCount = t.expectedAvailable
  | fuel + 1, some b, previousBlock, availableCount =>
    if availableCount = t.expectedAvailable then false
    else if w.findActive b t.activeCount (w.control c).activeHead ≠ some b ∨ ¬w.inAvailable b ∨
        w.availableLinks.prev b ≠ previousBlock then false
    else w.testAvailable c t fuel (w.availableLinks.next b) (some b) (availableCount + 1)

/-- `__test_invariants`. -/
def testInvariants (w : World α) (h : HiveId) : Bool :=
  match (w.container h).control with
  | none => true
  | some c =>
    let k := w.control c
    if k.owner ≠ h ∨ k.size > k.capacity then false
    else
      match w.testActive c (w.nextBlock + 1) k.activeHead {} with
      | none => false
      | some t =>
        if t.previousBlock ≠ k.activeTail ∨ t.totalLive ≠ k.size then false
        else
          match w.testReserved c (w.nextBlock + 1) k.reservedHead t.totalCapacity with
          | none => false
          | some totalCapacity =>
            if totalCapacity ≠ k.capacity then false
            else w.testAvailable c t (w.nextBlock + 1) k.availableHead none 0

end World

/-! ## One block -/

namespace Block

variable {k : Block α} {fl : List ℕ} {a n : ℕ}

/-- Counting with one more member that counts. -/
theorem countP_one_more {l : List ℕ} {p q : ℕ → Bool} {i : ℕ} (hn : l.Nodup) (hi : i ∈ l)
    (hpq : ∀ x ∈ l, p x = true ↔ q x = true ∨ x = i) (hq : q i = false) :
    l.countP p = l.countP q + 1 := by
  obtain ⟨l₁, l₂, rfl⟩ := List.append_of_mem hi
  rw [List.nodup_middle, List.nodup_cons] at hn
  have hsame : ∀ x ∈ l₁ ++ l₂, p x = true ↔ q x = true := by
    intro x hx
    have hxi : x ≠ i := fun he => hn.1 (he ▸ hx)
    have hmem : x ∈ l₁ ++ i :: l₂ := by
      rcases List.mem_append.mp hx with hx | hx <;> simp [hx]
    rw [hpq x hmem]
    simp [hxi]
  have hp : p i = true := (hpq i (by simp)).mpr (.inr rfl)
  rw [List.countP_append, List.countP_append, List.countP_cons_of_pos hp,
    List.countP_cons_of_neg (by simp [hq]),
    List.countP_congr fun x hx => hsame x (List.mem_append_left l₂ hx),
    List.countP_congr fun x hx => hsame x (List.mem_append_right l₁ hx)]
  omega

theorem runEnd_eq (hr : IsRun k.dead a n) :
    ∀ {fuel index : ℕ}, a ≤ index → index ≤ a + n → a + n - index < fuel →
      k.runEnd fuel index = a + n := by
  intro fuel
  induction fuel with
  | zero => intro index _ _ hf; omega
  | succ m ih =>
    intro index ha hle hf
    rw [runEnd]
    rcases Nat.lt_or_eq_of_le hle with hlt | rfl
    · have hd : index < k.highWater ∧ k.skip index ≠ 0 := hr.mem index ha hlt
      rw [if_pos hd]
      exact ih (by omega) hlt (by omega)
    · have hd : ¬(a + n < k.highWater ∧ k.skip (a + n) ≠ 0) := hr.right
      rw [if_neg hd]

/-- Only the live slots from `index` on are left to count. -/
theorem live_countP_succ {index : ℕ} (hlive : index ∈ k.live) :
    k.live.countP (index ≤ ·) = k.live.countP (index + 1 ≤ ·) + 1 := by
  refine countP_one_more live_nodup hlive (fun x _ => ?_) (by simp)
  simp only [decide_eq_true_eq]
  omega

theorem Ok.free_countP_succ (hk : k.Ok fl) {index : ℕ} (hlive : index ∈ k.live) :
    fl.countP (index ≤ ·) = fl.countP (index + 1 ≤ ·) := by
  refine List.countP_congr fun x hx => ?_
  have hne : x ≠ index := fun he => hk.live_notMem hlive (he ▸ hx)
  simp only [decide_eq_true_eq]
  omega

theorem live_countP_run (hr : IsRun k.dead a n) :
    k.live.countP (a ≤ ·) = k.live.countP (a + n ≤ ·) := by
  refine List.countP_congr fun x hx => ?_
  have hout : ¬(a ≤ x ∧ x < a + n) := fun hx' => (hr.mem x hx'.1 hx'.2).2 (mem_live.mp hx).2
  simp only [decide_eq_true_eq]
  omega

/-- A run has one node on the free list. -/
theorem Ok.free_countP_run (hk : k.Ok fl) (hr : IsRun k.dead a n) :
    fl.countP (a ≤ ·) = fl.countP (a + n ≤ ·) + 1 := by
  have hpos := hr.pos
  refine countP_one_more hk.free.nodup ((hk.runs a).mpr ⟨n, hr⟩) (fun x hx => ?_) ?_
  · obtain ⟨m, hr'⟩ := (hk.runs x).mp hx
    have hone : a ≤ x → x < a + n → x = a := fun h₁ h₂ => by
      by_contra hne
      exact hr'.left (x - 1) (by omega) (hr.mem (x - 1) (by omega) (by omega))
    simp only [decide_eq_true_eq]
    omega
  · simp only [decide_eq_false_iff_not]
    omega

/-- The scan counts the live slots and the runs. -/
theorem Ok.scan_from (hk : k.Ok fl) :
    ∀ {fuel index live runs : ℕ}, (index ∈ k.dead → ∀ j, j + 1 = index → j ∉ k.dead) →
      index ≤ k.highWater → k.highWater - index < fuel →
      k.scan fuel index live runs =
        some (live + k.live.countP (index ≤ ·), runs + fl.countP (index ≤ ·)) := by
  intro fuel
  induction fuel with
  | zero => intro index live runs _ _ hf; omega
  | succ m ih =>
    intro index live runs hstart hle hf
    rw [scan]
    rcases Nat.lt_or_eq_of_le hle with hlt | rfl
    · rw [if_pos hlt]
      by_cases hs : k.skip index = 0
      · -- a live slot
        have hnd : index ∉ k.dead := fun hm => hm.2 hs
        have hlive : index ∈ k.live := mem_live.mpr ⟨hlt, hs⟩
        have hlt' : index + 1 ≤ k.highWater := hlt
        rw [if_pos hs, ih (fun _ j hj => by rw [Nat.succ.inj hj]; exact hnd) hlt' (by omega),
          live_countP_succ hlive, hk.free_countP_succ hlive]
        congr 2
        omega
      · -- a dead run begins here
        obtain ⟨b, n, hr, hb, hb'⟩ := run_of_dead (b := k) ⟨hlt, hs⟩
        have hbi : b = index := by
          by_contra hne
          exact hstart ⟨hlt, hs⟩ (index - 1) (by omega) (hr.mem (index - 1) (by omega) (by omega))
        subst hbi
        have hpos := hr.pos
        have hbound := hk.run_bounded hr
        obtain ⟨hfirst, hlast⟩ := hk.lengths b n hr
        have hend : k.runEnd k.highWater (b + 1) = b + n :=
          runEnd_eq hr (by omega) (by omega) (by omega)
        rw [if_neg hs]
        simp only [hend, Nat.add_sub_cancel_left, hfirst, hlast]
        rw [if_neg (by simp; omega), ih (fun hm => absurd hm hr.right) (by omega) (by omega),
          live_countP_run hr, hk.free_countP_run hr]
        congr 2
        omega
    · rw [if_neg (Nat.lt_irrefl _)]
      have hlive : k.live.countP (k.highWater ≤ ·) = 0 := by
        refine List.countP_eq_zero.mpr fun x hx => ?_
        have hlt := (mem_live.mp hx).1
        simp only [decide_eq_true_eq]
        omega
      have hfree : fl.countP (k.highWater ≤ ·) = 0 := by
        refine List.countP_eq_zero.mpr fun x hx => ?_
        have hlt := (hk.mem_free_dead hx).1
        simp only [decide_eq_true_eq]
        omega
      rw [hlive, hfree, Nat.add_zero, Nat.add_zero]

theorem Ok.scan_eq (hk : k.Ok fl) :
    k.scan (k.highWater + 1) 0 0 0 = some (k.liveCount, fl.length) := by
  rw [hk.scan_from (fun _ j hj => by omega) (Nat.zero_le _) (by omega), hk.count]
  simp

/-- The walk over the free list visits every run once. -/
theorem Ok.testFree_from (hk : k.Ok fl) :
    ∀ (l₁ l₂ : List ℕ) {fuel : ℕ}, fl = l₁ ++ l₂ → l₂.length < fuel →
      k.testFree fl.length fuel l₂.head? l₁.getLast? l₁.length = true := by
  intro l₁ l₂
  induction l₂ generalizing l₁ with
  | nil =>
    intro fuel hfl hf
    cases fuel with
    | zero => simp at hf
    | succ m => simp [testFree, hfl]
  | cons i l₂ ih =>
    intro fuel hfl hf
    cases fuel with
    | zero => simp at hf
    | succ m =>
      have hi : i ∈ fl := by simp [hfl]
      obtain ⟨hlt, hs⟩ := hk.mem_free_dead hi
      have hstart : ¬(i ≠ 0 ∧ k.skip (i - 1) ≠ 0) := by
        rintro ⟨h0, hs'⟩
        obtain ⟨n, hr⟩ := (hk.runs i).mp hi
        exact hr.left (i - 1) (by omega) ⟨by omega, hs'⟩
      have hseg := hk.free.seg
      rw [hfl] at hseg
      obtain ⟨hprev, hnext, -, -⟩ := hseg.neighbours
      have hne : l₁.length ≠ fl.length := by
        rw [hfl]
        simp
      have hprev' : toWideIndex (k.readFreeLinks i).previous = l₁.getLast? := hprev
      have hnext' : toWideIndex (k.readFreeLinks i).next = l₂.head? := hnext
      rw [List.head?_cons, testFree, if_neg (by simp only [not_or]; exact ⟨hne, by omega, hs, hstart⟩)]
      simp only [hprev', hnext', ne_eq, not_true_eq_false, if_false]
      have hf' : l₂.length < m := by simpa using hf
      have hgo := ih (l₁ ++ [i]) (by rw [hfl]; simp) hf'
      simpa using hgo

theorem Ok.testFree_eq (hk : k.Ok fl) :
    k.testFree fl.length (fl.length + 1) k.freeHead none 0 = true := by
  rw [hk.free.head]
  exact hk.testFree_from [] fl rfl (Nat.lt_succ_self _)

end Block

/-! ## One hive -/

namespace World

variable {w : World α} {h : HiveId} {c : ControlId} {S : Shape}

/-- What the loop has counted after the active blocks in `l`. -/
def tallyOf (w : World α) (l : List BlockId) : Tally where
  previousBlock := l.getLast?
  totalCapacity := w.totalCapacity l
  totalLive := w.totalSize l
  expectedAvailable := l.countP fun b => (w.block b).Available
  activeCount := l.length

theorem tallyOf_concat (l : List BlockId) (b : BlockId) : w.tallyOf (l ++ [b]) =
    { previousBlock := some b
      totalCapacity := (w.tallyOf l).totalCapacity + (w.block b).capacity
      totalLive := (w.tallyOf l).totalLive + (w.block b).liveCount
      expectedAvailable := (w.tallyOf l).expectedAvailable + if (w.block b).Available then 1 else 0
      activeCount := (w.tallyOf l).activeCount + 1 } := by
  simp only [tallyOf, totalCapacity_append, totalSize_append, List.countP_append, List.countP_singleton,
    decide_eq_true_eq]
  simp [totalCapacity, totalSize]

theorem HiveOk.validBlock (hh : HiveOk w h c S) {l₁ l₂ : List BlockId} {b : BlockId}
    (hS : S.blocks = l₁ ++ b :: l₂) : w.validBlock c (w.totalCapacity l₁) b = true := by
  have hb : b ∈ S.blocks := by simp [hS]
  have hown := hh.represents.lists.owned b hb
  have hcap := hh.represents.filled.capacity b hb
  have hsum := hh.represents.capacity
  rw [hS, totalCapacity_append] at hsum
  have hcons : w.totalCapacity (b :: l₂) = (w.block b).capacity + w.totalCapacity l₂ := by
    simp [totalCapacity]
  exact decide_eq_true ⟨hown.control, by omega, hcap.2, by omega, hown.heapBlock, hown.heapSlots,
    hown.heapSkip⟩

theorem HiveOk.testActive_from (hh : HiveOk w h c S) :
    ∀ (l₂ l₁ : List BlockId) {fuel : ℕ}, S.active = l₁ ++ l₂ → l₂.length < fuel →
      w.testActive c fuel l₂.head? (w.tallyOf l₁) = some (w.tallyOf S.active) := by
  have hL := hh.represents.lists
  intro l₂
  induction l₂ with
  | nil =>
    intro l₁ fuel hS hf
    rw [List.append_nil] at hS
    cases fuel with
    | zero => simp at hf
    | succ n => rw [List.head?_nil, testActive, hS]
  | cons b l₂ ih =>
    intro l₁ fuel hS hf
    cases fuel with
    | zero => simp at hf
    | succ n =>
      have hb : b ∈ S.active := by simp [hS]
      have hbS : b ∈ S.blocks := Shape.mem_blocks.mpr (.inl hb)
      obtain ⟨⟨fl, hok⟩, hlc⟩ := hh.represents.filled.active b hb
      have hvalid : w.validBlock c (w.totalCapacity l₁) b = true := by
        refine hh.validBlock (show S.blocks = l₁ ++ b :: (l₂ ++ S.reserved) from ?_)
        simp [Shape.blocks, hS, hh.settled]
      have hactive : w.active b = true := (hL.active.flag b hbS).mpr hb
      have hres : w.reservedNext b = none := hL.reserved.clean b hbS (hL.notMem_reserved hb)
      have hseg := hL.active.seg
      rw [hS] at hseg
      obtain ⟨hprev, hnext, -, -⟩ := hseg.neighbours
      -- The order stamps grow along the list, so the block before `b` has a smaller one.
      have horder : (l₁.getLast?.any fun p => w.order p ≥ w.order b) = false := by
        have hord := hL.active.ordered
        rw [hS, List.pairwise_append] at hord
        cases hl : l₁.getLast? with
        | none => rfl
        | some p =>
          have hlt := hord.2.2 p (List.mem_of_getLast? hl) b List.mem_cons_self
          simp only [Option.any_some, decide_eq_false_iff_not]
          omega
      have hpos := hok.highWater_pos hlc
      have hlast := hok.last ((w.block b).highWater - 1) (by omega)
      have hav : w.inAvailable b = decide (w.block b).Available := by
        rw [Bool.eq_iff_iff, hL.available.flag b hbS, hh.represents.filled.available b hb]
        simp
      have hclean : ¬(w.block b).Available →
          w.availableLinks.prev b = none ∧ w.availableLinks.next b = none := by
        intro hn
        rw [← hh.represents.filled.available b hb] at hn
        exact (hL.available.clean b hbS hn).symm
      have hsize := hh.represents.size
      rw [hS, totalSize_append] at hsize
      have hcons : w.totalSize (b :: l₂) = (w.block b).liveCount + w.totalSize l₂ := by
        simp [totalSize]
      -- The first test of the source, one disjunct for each thing it rejects.
      have hfirst : ¬(¬w.validBlock c (w.tallyOf l₁).totalCapacity b = true ∨ ¬w.active b = true ∨
          (w.reservedNext b).isSome = true ∨ w.activeLinks.prev b ≠ (w.tallyOf l₁).previousBlock ∨
          ((w.tallyOf l₁).previousBlock.any fun p => w.order p ≥ w.order b) = true ∨
          (w.block b).liveCount = 0 ∨ (w.block b).highWater = 0 ∨
          (w.block b).highWater > (w.block b).capacity ∨
          (w.block b).skip ((w.block b).highWater - 1) ≠ 0) := by
        have hbound := hok.bounded
        simp only [tallyOf, not_or, hvalid, hactive, hres, hprev, horder]
        refine ⟨by simp, by simp, by simp, by simp, by simp, hlc, by omega, by omega, ?_⟩
        exact not_not.mpr hlast
      rw [List.head?_cons, testActive]
      rw [if_neg hfirst, hok.scan_eq]
      simp only
      rw [if_neg (by simp only [tallyOf]; omega), if_neg (by rw [hok.testFree_eq]; simp),
        if_neg (by
          simp only [hav, ne_eq, not_true_eq_false, false_or, not_and]
          intro hn
          rw [(hclean hn).1, (hclean hn).2]
          simp)]
      have hf' : l₂.length < n := by simpa using hf
      have hgo := ih (l₁ ++ [b]) (by rw [hS]; simp) hf'
      rw [tallyOf_concat] at hgo
      rw [hnext]
      exact hgo

theorem HiveOk.testReserved_from (hh : HiveOk w h c S) :
    ∀ (l₂ l₁ : List BlockId) {start : Option BlockId} {fuel : ℕ}, S.reserved = l₁ ++ l₂ →
      Chain w.reservedNext start l₂ → l₂.length < fuel →
      w.testReserved c fuel start (w.totalCapacity (S.active ++ l₁)) =
        some (w.totalCapacity S.blocks) := by
  have hL := hh.represents.lists
  intro l₂
  induction l₂ with
  | nil =>
    intro l₁ start fuel hS hc hf
    rw [List.append_nil] at hS
    rw [show start = none from hc]
    cases fuel with
    | zero => simp at hf
    | succ n =>
      rw [testReserved, ← hS]
      simp [Shape.blocks, hh.settled]
  | cons b l₂ ih =>
    intro l₁ start fuel hS hc hf
    obtain ⟨rfl, hc⟩ := hc
    cases fuel with
    | zero => simp at hf
    | succ n =>
      have hb : b ∈ S.reserved := by simp [hS]
      have hbS : b ∈ S.blocks := Shape.mem_blocks.mpr (.inr (.inl hb))
      have hna : b ∉ S.active := fun hm => hL.notMem_reserved hm hb
      have hnav : b ∉ S.available := fun hm => hna (hL.available.sub b hm)
      have hvac := hh.represents.filled.reserved b hb
      have hvalid : w.validBlock c (w.totalCapacity (S.active ++ l₁)) b = true := by
        refine hh.validBlock (show S.blocks = S.active ++ l₁ ++ b :: l₂ from ?_)
        simp [Shape.blocks, hS, hh.settled]
      have hactive : w.active b = false := by
        rw [Bool.eq_false_iff, ne_eq, hL.active.flag b hbS]
        exact hna
      have hav : w.inAvailable b = false := by
        rw [Bool.eq_false_iff, ne_eq, hL.available.flag b hbS]
        exact hnav
      obtain ⟨hal, hal'⟩ := hL.active.clean b hbS hna
      obtain ⟨hvl, hvl'⟩ := hL.available.clean b hbS hnav
      rw [testReserved]
      rw [if_neg (by
        simp [hvalid, hactive, hav, hvac.liveCount, hvac.highWater, hvac.freeHead, hal, hal', hvl, hvl'])]
      have hf' : l₂.length < n := by simpa using hf
      have hgo := ih (l₁ ++ [b]) (by rw [hS]; simp) hc hf'
      rw [← List.append_assoc, totalCapacity_append, totalCapacity_append] at hgo
      rw [totalCapacity_append]
      simpa [totalCapacity] using hgo

theorem findActive_eq {start : Option BlockId} {l₁ l₂ : List BlockId} {b : BlockId} {n : ℕ}
    (hc : Chain w.activeLinks.next start (l₁ ++ b :: l₂)) (hb : b ∉ l₁) (hn : l₁.length < n) :
    w.findActive b n start = some b := by
  induction l₁ generalizing start n with
  | nil =>
    obtain ⟨m, rfl⟩ : ∃ m, n = m + 1 := ⟨n - 1, by simp at hn; omega⟩
    rw [hc.1, findActive, if_neg (by simp)]
  | cons x l₁ ih =>
    obtain ⟨m, rfl⟩ : ∃ m, n = m + 1 := ⟨n - 1, by simp at hn; omega⟩
    obtain ⟨hx, hb⟩ := not_or.mp (fun hm => hb (List.mem_cons.mpr hm))
    rw [hc.1, findActive, if_pos (Ne.symm hx)]
    exact ih hc.2 hb (by simpa using hn)

/-- As many blocks are available as the available list has. -/
theorem HiveOk.expectedAvailable (hh : HiveOk w h c S) :
    (w.tallyOf S.active).expectedAvailable = S.available.length := by
  have hL := hh.represents.lists
  have hperm : (S.active.filter fun b => (w.block b).Available).Perm S.available := by
    refine (List.perm_ext_iff_of_nodup (hL.active_nodup.filter _) hL.available.nodup).mpr fun b => ?_
    simp only [List.mem_filter, decide_eq_true_eq]
    constructor
    · rintro ⟨hb, hav⟩
      exact (hh.represents.filled.available b hb).mpr hav
    · intro hb
      have hact := hL.available.sub b hb
      exact ⟨hact, (hh.represents.filled.available b hact).mp hb⟩
  simp only [tallyOf, List.countP_eq_length_filter]
  exact hperm.length_eq

theorem HiveOk.testAvailable_from (hh : HiveOk w h c S) :
    ∀ (l₂ l₁ : List BlockId) {fuel : ℕ}, S.available = l₁ ++ l₂ → l₂.length < fuel →
      w.testAvailable c (w.tallyOf S.active) fuel l₂.head? l₁.getLast? l₁.length = true := by
  have hL := hh.represents.lists
  have hexp := hh.expectedAvailable
  intro l₂
  induction l₂ with
  | nil =>
    intro l₁ fuel hS hf
    rw [List.append_nil] at hS
    cases fuel with
    | zero => simp at hf
    | succ n => simp [testAvailable, hexp, hS]
  | cons b l₂ ih =>
    intro l₁ fuel hS hf
    cases fuel with
    | zero => simp at hf
    | succ n =>
      have hb : b ∈ S.available := by simp [hS]
      have hact := hL.available.sub b hb
      have hav : w.inAvailable b = true :=
        (hL.available.flag b (Shape.mem_blocks.mpr (.inl hact))).mpr hb
      have hseg := hL.available.seg
      rw [hS] at hseg
      obtain ⟨hprev, hnext, -, -⟩ := hseg.neighbours
      have hfind : w.findActive b (w.tallyOf S.active).activeCount (w.control c).activeHead = some b := by
        obtain ⟨m₁, m₂, hm⟩ := List.append_of_mem hact
        have hchain := hL.active_chain
        have hn := hL.active_nodup
        simp only [tallyOf]
        rw [hm] at hchain hn ⊢
        refine findActive_eq hchain ?_ (by simp)
        exact fun hmem => (List.nodup_append.mp hn).2.2 b hmem b List.mem_cons_self rfl
      have hcount : l₁.length ≠ S.available.length := by
        rw [hS]
        simp
      rw [List.head?_cons, testAvailable, hexp, if_neg hcount, if_neg (by simp [hfind, hav, hprev]), hnext]
      have hf' : l₂.length < n := by simpa using hf
      have hgo := ih (l₁ ++ [b]) (by rw [hS]; simp) hf'
      simpa using hgo

/-- No hive has more elements than slots. -/
theorem HiveOk.size_le (hh : HiveOk w h c S) : (w.control c).size ≤ (w.control c).capacity := by
  have hle : w.totalSize S.active ≤ w.totalCapacity S.active := by
    refine List.sum_le_sum fun b hb => ?_
    obtain ⟨⟨fl, hok⟩, -⟩ := hh.represents.filled.active b hb
    rw [hok.count]
    exact Block.live_length_le.trans hok.bounded
  have hcap := hh.represents.capacity
  simp only [Shape.blocks, hh.settled, List.append_nil, totalCapacity_append] at hcap
  rw [hh.represents.size, hcap]
  omega

theorem Inv.size_le_capacity (hi : Inv w) (h : HiveId) : w.size h ≤ w.capacity h := by
  unfold World.size World.capacity
  cases hc : (w.container h).control with
  | none => exact le_refl _
  | some c =>
    obtain ⟨S, hS⟩ := hi h c hc
    exact hS.size_le

/-- A hive that is in order passes its self-check. -/
theorem HiveOk.testInvariants (hh : HiveOk w h c S) (hc : (w.container h).control = some c) :
    w.testInvariants h = true := by
  have hL := hh.represents.lists
  have hactive : w.testActive c (w.nextBlock + 1) (w.control c).activeHead {} =
      some (w.tallyOf S.active) := by
    rw [hL.active.head]
    exact hh.testActive_from S.active [] rfl (Nat.lt_succ_of_le hL.active_length_le)
  have hreserved : w.testReserved c (w.nextBlock + 1) (w.control c).reservedHead
      (w.tallyOf S.active).totalCapacity = some (w.totalCapacity S.blocks) := by
    have hgo := hh.testReserved_from S.reserved [] rfl hL.reserved.chain
      (Nat.lt_succ_of_le hL.reserved_length_le)
    rw [List.append_nil] at hgo
    exact hgo
  have havailable : w.testAvailable c (w.tallyOf S.active) (w.nextBlock + 1)
      (w.control c).availableHead none 0 = true := by
    have hle : S.available.length ≤ S.active.length :=
      (List.subperm_of_subset hL.available.nodup hL.available.sub).length_le
    rw [hL.available.head]
    exact hh.testAvailable_from S.available [] rfl
      (Nat.lt_succ_of_le (le_trans hle hL.active_length_le))
  have hsize := hh.size_le
  simp only [World.testInvariants, hc]
  rw [if_neg (by simp only [not_or, not_not]; exact ⟨hh.owner, by omega⟩), hactive]
  simp only
  rw [if_neg (by
    simp only [tallyOf, not_or, not_not]
    exact ⟨hL.active.tail.symm, hh.represents.size.symm⟩), hreserved]
  simp only
  rw [if_neg (by rw [not_not]; exact hh.represents.capacity.symm)]
  exact havailable

theorem Inv.testInvariants (hi : Inv w) (h : HiveId) : w.testInvariants h = true := by
  cases hc : (w.container h).control with
  | none => simp [World.testInvariants, hc]
  | some c =>
    obtain ⟨S, hS⟩ := hi h c hc
    exact hS.testInvariants hc

end World

end CCForge.Hive
