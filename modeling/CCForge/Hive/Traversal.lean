import Mathlib.Data.List.Chain
import CCForge.Hive.Representation

/-!
# Traversal by jump counts

`operator++` reads the length of a dead run at its first slot and `operator--` at
its last one. Both visit exactly the live slots: consecutive live slots of a block
are joined by one run, the first live slot of a block is its first skip entry, and
the last one lies just below `high_water`.
-/

namespace CCForge.Hive

namespace Block

variable {α : Type} {k : Block α} {fl : List ℕ} {i j : ℕ}

/-- Consecutive members of an increasing list have no member between them. -/
theorem gap_of_split {l l₁ l₂ : List ℕ} (hs : l.Pairwise (· < ·)) (hl : l = l₁ ++ i :: j :: l₂) :
    i < j ∧ ∀ m ∈ l, ¬(i < m ∧ m < j) := by
  subst hl
  rw [List.pairwise_append, List.pairwise_cons, List.pairwise_cons] at hs
  obtain ⟨-, ⟨hi, hj, -⟩, h₁⟩ := hs
  refine ⟨hi j List.mem_cons_self, fun m hm => ?_⟩
  rcases List.mem_append.mp hm with hm | hm
  · have hlt := h₁ m hm i List.mem_cons_self
    omega
  · rcases List.mem_cons.mp hm with rfl | hm
    · omega
    · rcases List.mem_cons.mp hm with rfl | hm
      · omega
      · have hlt := hj m hm
        omega

theorem live_sorted : k.live.Pairwise (· < ·) := List.pairwise_lt_range.filter _

/-- The jump from a live slot to the next one, as it is read from either side. -/
structure Jump (k : Block α) (i j : ℕ) : Prop where
  inside : i + 1 < k.highWater
  forward : j = i + 1 + k.skip (i + 1)
  notFirst : j ≠ 0
  short : k.skip (j - 1) ≤ j - 1
  backward : i = j - 1 - k.skip (j - 1)

theorem Ok.jump (h : k.Ok fl) (hi : i ∈ k.live) (hj : j ∈ k.live) (hlt : i < j)
    (hgap : ∀ m ∈ k.live, ¬(i < m ∧ m < j)) : k.Jump i j := by
  obtain ⟨hiw, his⟩ := mem_live.mp hi
  obtain ⟨hjw, hjs⟩ := mem_live.mp hj
  have hnd : i ∉ k.dead := fun hm => hm.2 his
  by_cases hs : k.skip (i + 1) = 0
  · have hji : j = i + 1 := by
      by_contra hne
      exact hgap (i + 1) (mem_live.mpr ⟨by omega, hs⟩) (by omega)
    subst hji
    refine ⟨hjw, by omega, by omega, ?_, ?_⟩
    · rw [show i + 1 - 1 = i by omega, his]
      omega
    · rw [show i + 1 - 1 = i by omega, his]
      omega
  · have hrun := h.right_run hnd (by omega) hs
    have hbound := h.run_bounded hrun
    have hpos := hrun.pos
    have hend : j = i + 1 + k.skip (i + 1) := by
      have hlive : i + 1 + k.skip (i + 1) ∈ k.live := by
        refine mem_live.mpr ⟨hbound, ?_⟩
        by_contra hne
        exact hrun.right ⟨hbound, hne⟩
      have h1 := hgap _ hlive
      by_contra hne
      exact (hrun.mem j (by omega) (by omega)).2 hjs
    have hlast := (h.lengths _ _ hrun).2
    rw [← hend] at hlast
    exact ⟨by omega, hend, by omega, by omega, by omega⟩

/-- The first live slot is the first skip entry, from either side. -/
theorem Ok.first (h : k.Ok fl) (hj : j ∈ k.live) (hmin : ∀ m ∈ k.live, j ≤ m) :
    k.skip 0 = j ∧ ¬(j ≠ 0 ∧ k.skip (j - 1) ≤ j - 1) := by
  obtain ⟨hjw, hjs⟩ := mem_live.mp hj
  by_cases h0 : j = 0
  · subst h0
    exact ⟨hjs, fun hx => hx.1 rfl⟩
  · have hd : 0 ∈ k.dead := by
      refine ⟨by omega, fun hs => ?_⟩
      have hle := hmin 0 (mem_live.mpr ⟨by omega, hs⟩)
      omega
    obtain ⟨a, n, hrun, ha, hn⟩ := Ok.run_of_dead hd
    obtain rfl : a = 0 := by omega
    have hbound := h.run_bounded hrun
    have hend : j = n := by
      have hlive : n ∈ k.live := by
        refine mem_live.mpr ⟨by omega, ?_⟩
        by_contra hne
        exact hrun.right ⟨hbound, by rw [Nat.zero_add]; exact hne⟩
      have h1 := hmin n hlive
      by_contra hne
      exact (hrun.mem j (by omega) (by omega)).2 hjs
    obtain ⟨h1, h2⟩ := h.lengths 0 n hrun
    rw [Nat.zero_add] at h2
    rw [hend]
    exact ⟨h1, by omega⟩

theorem Ok.live_chain (h : k.Ok fl) : k.live.IsChain k.Jump := by
  rw [List.isChain_iff_forall_rel_of_append_cons_cons]
  intro i j l₁ l₂ hl
  obtain ⟨hlt, hgap⟩ := gap_of_split live_sorted hl
  refine h.jump ?_ ?_ hlt hgap
  · rw [hl]
    simp
  · rw [hl]
    simp

theorem Ok.live_head (h : k.Ok fl) (hj : k.live.head? = some j) :
    k.skip 0 = j ∧ ¬(j ≠ 0 ∧ k.skip (j - 1) ≤ j - 1) := by
  refine h.first (List.mem_of_head? hj) fun m hm => ?_
  have hs := live_sorted (k := k)
  cases hl : k.live with
  | nil => simp [hl] at hj
  | cons x l =>
    rw [hl] at hs hj hm
    obtain rfl : x = j := by simpa using hj
    rcases List.mem_cons.mp hm with rfl | hm
    · exact le_refl _
    · exact le_of_lt ((List.pairwise_cons.mp hs).1 m hm)

theorem Ok.highWater_pos (h : k.Ok fl) (hl : k.liveCount ≠ 0) : 0 < k.highWater := by
  by_contra h0
  refine hl ?_
  rw [h.count, Block.live, show k.highWater = 0 by omega]
  rfl

theorem Ok.live_last (h : k.Ok fl) (hl : k.liveCount ≠ 0) :
    k.live.getLast? = some (k.highWater - 1) := by
  have hpos := h.highWater_pos hl
  have hlast := h.last (k.highWater - 1) (by omega)
  have hrange : List.range k.highWater = List.range (k.highWater - 1) ++ [k.highWater - 1] := by
    rw [← List.range_succ]
    congr 1
    omega
  rw [Block.live, hrange, List.filter_append, List.getLast?_append]
  simp [hlast]

end Block

namespace World

variable {α : Type} {w : World α} {h : HiveId} {c : ControlId} {S : Shape} {b : BlockId}

/-- The live slots of the blocks in `l`, block by block. -/
def slotsOf (w : World α) (l : List BlockId) : List Handle :=
  l.flatMap fun b => (w.block b).live.map (Prod.mk b)

/-- The live slots of a hive: those of its active blocks in list order, by
increasing index within a block. -/
def positions (w : World α) (h : HiveId) : List Handle := w.slotsOf (w.activeBlocks h)

/-- The iterator to an element. -/
def iteratorAt (p : Handle) : Iterator := .at p.1 p.2

/-- Every position of a hive that an iterator can denote, `end()` included. -/
def iterators (w : World α) (h : HiveId) : List Iterator :=
  (w.positions h).map iteratorAt ++ [w.last h]

/-- `y` follows `x`, for `operator++` and for `operator--`. -/
structure Adjacent (w : World α) (x y : Iterator) : Prop where
  next : w.next x = y
  prev : w.prev y = x

theorem adjacent_inside {i j : ℕ} (hj : (w.block b).Jump i j) : w.Adjacent (.at b i) (.at b j) := by
  constructor
  · simp only [World.next, Iterator.at, if_pos hj.inside, ← hj.forward]
  · simp only [World.prev, Iterator.at, if_pos (And.intro hj.notFirst hj.short), ← hj.backward]

theorem adjacent_blocks {b' : BlockId} {j : ℕ} {fl : List ℕ} (hok : (w.block b).liveCount ≠ 0)
    (hb : (w.block b).Ok fl) (hnext : w.activeLinks.next b = some b')
    (hprev : w.activeLinks.prev b' = some b)
    (hj : (w.block b').skip 0 = j ∧ ¬(j ≠ 0 ∧ (w.block b').skip (j - 1) ≤ j - 1)) :
    w.Adjacent (.at b ((w.block b).highWater - 1)) (.at b' j) := by
  have hpos := hb.highWater_pos hok
  constructor
  · have hout : ¬((w.block b).highWater - 1 + 1 < (w.block b).highWater) := by omega
    simp only [World.next, Iterator.at, if_neg hout, hnext, hj.1]
  · simp only [World.prev, Iterator.at, if_neg hj.2, hprev, World.back]

theorem adjacent_last {fl : List ℕ} (hok : (w.block b).liveCount ≠ 0)
    (hb : (w.block b).Ok fl) (hnext : w.activeLinks.next b = none)
    (howner : (w.control (w.blockControl b)).owner = h) (hc : (w.container h).control = some c)
    (htail : (w.control c).activeTail = some b) :
    w.Adjacent (.at b ((w.block b).highWater - 1)) (w.last h) := by
  have hpos := hb.highWater_pos hok
  constructor
  · have hout : ¬((w.block b).highWater - 1 + 1 < (w.block b).highWater) := by omega
    simp only [World.next, Iterator.at, if_neg hout, hnext, howner, World.last]
  · simp [World.prev, World.last, hc, htail, World.back]

/-- The iterators over a suffix of the active list. -/
def itsOf (w : World α) (h : HiveId) (l : List BlockId) : List Iterator :=
  (w.slotsOf l).map iteratorAt ++ [w.last h]

theorem itsOf_cons (l : List BlockId) : w.itsOf h (b :: l) =
    (w.block b).live.map (fun i => .at b i) ++ w.itsOf h l := by
  simp [itsOf, slotsOf, List.map_map, Function.comp_def, iteratorAt]

theorem live_ne_nil {fl : List ℕ} (hok : (w.block b).Ok fl) (hn : (w.block b).liveCount ≠ 0) :
    (w.block b).live ≠ [] := by
  intro he
  rw [hok.count, he] at hn
  exact hn rfl

theorem itsOf_chain (hc : (w.container h).control = some c) (howner : (w.control c).owner = h)
    {l : List BlockId} {p : Option BlockId} (hseg : w.activeLinks.Seg p l none)
    (hblocks : ∀ b ∈ l, ((∃ fl, (w.block b).Ok fl) ∧ (w.block b).liveCount ≠ 0) ∧
      w.blockControl b = c)
    (htail : l ≠ [] → (w.control c).activeTail = l.getLast?) :
    (w.itsOf h l).IsChain w.Adjacent := by
  induction l generalizing p with
  | nil => exact .singleton _
  | cons b l ih =>
    obtain ⟨-, hnext, hrest⟩ := hseg
    rw [Option.or_none] at hnext
    obtain ⟨⟨⟨fl, hok⟩, hn⟩, hctl⟩ := hblocks b List.mem_cons_self
    rw [itsOf_cons, List.isChain_append]
    refine ⟨?_, ih hrest (fun x hx => hblocks x (List.mem_cons_of_mem b hx)) fun hl => ?_, ?_⟩
    · rw [List.isChain_map]
      exact hok.live_chain.imp fun i j hj => adjacent_inside hj
    · rw [htail (by simp), List.getLast?_cons_of_ne_nil hl]
    · -- the last slot of `b` is joined to whatever comes behind the block
      intro x hx y hy
      rw [List.getLast?_map, hok.live_last hn, Option.map_some, Option.mem_some_iff] at hx
      subst hx
      cases l with
      | nil =>
        obtain rfl : w.last h = y := by simpa [itsOf, slotsOf] using hy
        exact adjacent_last hn hok hnext (by rw [hctl]; exact howner) hc (by simpa using htail)
      | cons b' l =>
        obtain ⟨⟨⟨fl', hok'⟩, hn'⟩, -⟩ := hblocks b' (by simp)
        rw [itsOf_cons, List.head?_append] at hy
        obtain ⟨j, hj⟩ : ∃ j, (w.block b').live.head? = some j := by
          cases hl : (w.block b').live with
          | nil => exact absurd hl (live_ne_nil hok' hn')
          | cons j _ => exact ⟨j, rfl⟩
        rw [List.head?_map, hj] at hy
        obtain rfl : Iterator.at b' j = y := by simpa using hy
        exact adjacent_blocks hn hok hnext hrest.1 (hok'.live_head hj)

theorem Inv.iterators_chain (hi : Inv w) (h : HiveId) : (w.iterators h).IsChain w.Adjacent := by
  cases hc : (w.container h).control with
  | none =>
    simp only [iterators, positions, activeBlocks, hc, slotsOf, List.flatMap_nil, List.map_nil,
      List.nil_append]
    exact .singleton _
  | some c =>
    obtain ⟨S, hh⟩ := hi h c hc
    have hL := hh.represents.lists
    rw [iterators, positions, hh.activeBlocks hc]
    refine itsOf_chain hc hh.owner hL.active.seg (fun b hb => ?_) fun _ => hL.active.tail
    exact ⟨hh.represents.filled.active b hb, hL.mem_owned (Shape.mem_blocks.mpr (.inl hb))⟩

theorem Inv.first_eq (hi : Inv w) (h : HiveId) : (w.iterators h).head? = some (w.first h) := by
  cases hc : (w.container h).control with
  | none => simp [iterators, positions, activeBlocks, hc, slotsOf, World.first]
  | some c =>
    obtain ⟨S, hh⟩ := hi h c hc
    rw [iterators, positions, hh.activeBlocks hc]
    have hhead := hh.represents.lists.active.head
    cases hl : S.active with
    | nil => simp [World.first, hc, hhead, hl, slotsOf]
    | cons b l =>
      obtain ⟨⟨fl, hok⟩, hn⟩ := hh.represents.filled.active b (by simp [hl])
      change (w.itsOf h (b :: l)).head? = _
      rw [itsOf_cons, List.head?_append, List.head?_map]
      obtain ⟨j, hj⟩ : ∃ j, (w.block b).live.head? = some j := by
        cases hl : (w.block b).live with
        | nil => exact absurd hl (live_ne_nil hok hn)
        | cons j _ => exact ⟨j, rfl⟩
      simp [World.first, hc, hhead, hl, hj, (hok.live_head hj).1]


/-! ## Handles -/

theorem slotsOf_eq {l : List BlockId} (hok : ∀ b ∈ l, ∃ fl, (w.block b).Ok fl) :
    (w.elementsOf l).map Prod.fst = w.slotsOf l := by
  unfold elementsOf slotsOf
  rw [List.map_flatMap]
  refine List.flatMap_congr fun b hb => ?_
  obtain ⟨fl, hb⟩ := hok b hb
  rw [← hb.elements_fst, List.map_map, List.map_map]
  rfl

/-- The handles of the elements are the live slots. -/
theorem Inv.elements_fst (hi : Inv w) (h : HiveId) : (w.elements h).map Prod.fst = w.positions h := by
  cases hc : (w.container h).control with
  | none => simp [elements_of_none hc, positions, activeBlocks, hc, slotsOf]
  | some c =>
    obtain ⟨S, hh⟩ := hi h c hc
    rw [hh.elements hc, positions, hh.activeBlocks hc]
    exact slotsOf_eq fun b hb => (hh.represents.filled.active b hb).1

theorem slotsOf_nodup {l : List BlockId} (hn : l.Nodup) : (w.slotsOf l).Nodup := by
  unfold slotsOf
  rw [List.nodup_flatMap]
  refine ⟨fun b _ => Block.live_nodup.map fun i j hij => (Prod.mk.inj hij).2, ?_⟩
  refine hn.imp fun {a b} hab p hp hp' => ?_
  obtain ⟨i, -, rfl⟩ := List.mem_map.mp hp
  obtain ⟨j, -, hj⟩ := List.mem_map.mp hp'
  exact hab (Prod.mk.inj hj).1.symm

theorem Inv.positions_nodup (hi : Inv w) (h : HiveId) : (w.positions h).Nodup := by
  cases hc : (w.container h).control with
  | none => simp [positions, activeBlocks, hc, slotsOf]
  | some c =>
    obtain ⟨S, hh⟩ := hi h c hc
    rw [positions, hh.activeBlocks hc]
    exact slotsOf_nodup hh.represents.lists.active_nodup

/-- The position at which the rest `l` of a sequence begins. -/
def startOf (w : World α) (h : HiveId) (l : List (Handle × α)) : Iterator :=
  match l with
  | [] => w.last h
  | e :: _ => iteratorAt e.1

/-- `operator++` on an element goes to where the rest of the sequence begins. -/
theorem Inv.next_eq (hi : Inv w) {l₁ l₂ : List (Handle × α)} {p : Handle} {v : α}
    (he : w.elements h = l₁ ++ (p, v) :: l₂) : w.next (iteratorAt p) = w.startOf h l₂ := by
  have hchain := hi.iterators_chain h
  rw [iterators, ← hi.elements_fst h, he, List.map_append, List.map_append, List.append_assoc,
    List.map_cons, List.map_cons, List.cons_append, List.isChain_append] at hchain
  have hrest := hchain.2.1
  cases l₂ with
  | nil => exact (List.isChain_cons_cons.mp hrest).1.next
  | cons e l => exact (List.isChain_cons_cons.mp hrest).1.next

/-! ## Loops over a hive -/

/-- The loop that goes from `it` to `last` by `operator++`, with the iterators it sees;
`none` if it has not come to its end after `fuel` steps. -/
def traverse (w : World α) (last : Iterator) : ℕ → Iterator → Option (List Iterator)
  | 0, _ => none
  | fuel + 1, it =>
    if World.same it last then some []
    else (w.traverse last fuel (w.next it)).map (it :: ·)

/-- The loop that goes from `it` back to `first` by `operator--`. -/
def traverseBack (w : World α) (first : Iterator) : ℕ → Iterator → Option (List Iterator)
  | 0, _ => none
  | fuel + 1, it =>
    if World.same it first then some []
    else (w.traverseBack first fuel (w.prev it)).map (w.prev it :: ·)

theorem same_refl (it : Iterator) : World.same it it = true := by
  cases hb : it.block <;> simp [World.same, hb]

theorem same_eq {x y : Iterator} (hx : x ∈ w.iterators h) (hy : y ∈ w.iterators h)
    (hs : World.same x y = true) : x = y := by
  simp only [iterators, List.mem_append, List.mem_map, List.mem_singleton] at hx hy
  rcases hx with ⟨p, -, rfl⟩ | rfl <;> rcases hy with ⟨q, -, rfl⟩ | rfl
  · simpa [World.same, iteratorAt, Iterator.at] using hs
  · simp [World.same, World.last, iteratorAt, Iterator.at] at hs
  · simp [World.same, World.last, iteratorAt, Iterator.at] at hs
  · rfl

theorem traverse_chain {l : List Iterator} {last : Iterator} :
    ∀ {it : Iterator} {fuel : ℕ}, (it :: (l ++ [last])).IsChain w.Adjacent →
      (∀ x ∈ it :: l, World.same x last = false) → l.length + 1 < fuel →
      w.traverse last fuel it = some (it :: l) := by
  induction l with
  | nil =>
    intro it fuel hc hs hf
    obtain ⟨n, rfl⟩ : ∃ n, fuel = n + 2 := ⟨fuel - 2, by simp at hf; omega⟩
    rw [traverse, if_neg (by simp [hs it List.mem_cons_self]),
      (List.isChain_cons_cons.mp hc).1.next, traverse, if_pos (same_refl last)]
    rfl
  | cons x l ih =>
    intro it fuel hc hs hf
    obtain ⟨n, rfl⟩ : ∃ n, fuel = n + 1 := ⟨fuel - 1, by simp at hf; omega⟩
    obtain ⟨hadj, hrest⟩ := List.isChain_cons_cons.mp hc
    rw [traverse, if_neg (by simp [hs it List.mem_cons_self]), hadj.next,
      ih hrest (fun y hy => hs y (List.mem_cons_of_mem it hy)) (by simpa using hf)]
    rfl

theorem traverseBack_chain {l : List Iterator} {first : Iterator} :
    ∀ {it : Iterator} {fuel : ℕ}, (it :: (l ++ [first])).IsChain (fun y x => w.Adjacent x y) →
      (∀ x ∈ it :: l, World.same x first = false) → l.length + 1 < fuel →
      w.traverseBack first fuel it = some (l ++ [first]) := by
  induction l with
  | nil =>
    intro it fuel hc hs hf
    obtain ⟨n, rfl⟩ : ∃ n, fuel = n + 2 := ⟨fuel - 2, by simp at hf; omega⟩
    rw [traverseBack, if_neg (by simp [hs it List.mem_cons_self]),
      (List.isChain_cons_cons.mp hc).1.prev, traverseBack, if_pos (same_refl first)]
    rfl
  | cons x l ih =>
    intro it fuel hc hs hf
    obtain ⟨n, rfl⟩ : ∃ n, fuel = n + 1 := ⟨fuel - 1, by simp at hf; omega⟩
    obtain ⟨hadj, hrest⟩ := List.isChain_cons_cons.mp hc
    rw [traverseBack, if_neg (by simp [hs it List.mem_cons_self]), hadj.prev,
      ih hrest (fun y hy => hs y (List.mem_cons_of_mem it hy)) (by simpa using hf)]
    rfl

theorem Inv.iterators_nodup (hi : Inv w) (h : HiveId) : (w.iterators h).Nodup := by
  refine List.nodup_append.mpr ⟨?_, List.nodup_singleton _, fun x hx y hy => ?_⟩
  · refine (hi.positions_nodup h).map fun p q hpq => ?_
    simp only [iteratorAt, Iterator.at, Iterator.mk.injEq, Option.some.injEq, and_true] at hpq
    exact Prod.ext hpq.1 hpq.2
  · obtain ⟨p, -, rfl⟩ := List.mem_map.mp hx
    rw [List.mem_singleton.mp hy]
    simp [iteratorAt, Iterator.at, World.last]

/-- Two different iterators of a hive do not compare equal. -/
theorem Inv.same_false (hi : Inv w) {l : List Iterator} {x y : Iterator}
    (hl : (w.iterators h).Perm (y :: l)) (hx : x ∈ l) : World.same x y = false := by
  rw [Bool.eq_false_iff]
  intro hs
  have hxy := same_eq (h := h) (hl.mem_iff.mpr (List.mem_cons_of_mem y hx))
    (hl.mem_iff.mpr List.mem_cons_self) hs
  have hn := hl.nodup_iff.mp (hi.iterators_nodup h)
  exact (List.nodup_cons.mp hn).1 (hxy ▸ hx)

theorem Inv.traverse_eq (hi : Inv w) (h : HiveId) {fuel : ℕ} (hf : (w.positions h).length < fuel) :
    w.traverse (w.last h) fuel (w.first h) = some ((w.positions h).map iteratorAt) := by
  have hchain := hi.iterators_chain h
  have hfirst := hi.first_eq h
  have hperm : (w.iterators h).Perm (w.last h :: (w.positions h).map iteratorAt) :=
    List.perm_append_comm
  have hsame : ∀ x ∈ (w.positions h).map iteratorAt, World.same x (w.last h) = false :=
    fun x hx => hi.same_false hperm hx
  rw [iterators] at hchain hfirst
  cases hp : w.positions h with
  | nil =>
    rw [hp] at hfirst hf
    obtain ⟨n, rfl⟩ : ∃ n, fuel = n + 1 := ⟨fuel - 1, by simp at hf; omega⟩
    simp only [List.map_nil, List.nil_append, List.head?_cons, Option.some.injEq] at hfirst
    rw [← hfirst, traverse, if_pos (same_refl _)]
    rfl
  | cons p l =>
    rw [hp] at hchain hfirst hf hsame
    simp only [List.map_cons, List.cons_append, List.head?_cons, Option.some.injEq] at hchain hfirst hsame
    rw [← hfirst]
    exact traverse_chain hchain hsame (by simpa using hf)

theorem Inv.traverseBack_eq (hi : Inv w) (h : HiveId) {fuel : ℕ}
    (hf : (w.positions h).length < fuel) :
    w.traverseBack (w.first h) fuel (w.last h) = some ((w.positions h).reverse.map iteratorAt) := by
  have hchain := hi.iterators_chain h
  have hfirst := hi.first_eq h
  rw [iterators] at hfirst
  cases hp : w.positions h with
  | nil =>
    rw [hp] at hfirst hf
    obtain ⟨n, rfl⟩ : ∃ n, fuel = n + 1 := ⟨fuel - 1, by simp at hf; omega⟩
    simp only [List.map_nil, List.nil_append, List.head?_cons, Option.some.injEq] at hfirst
    rw [← hfirst, traverseBack, if_pos (same_refl _)]
    rfl
  | cons p l =>
    have hits : w.iterators h = iteratorAt p :: (l.map iteratorAt ++ [w.last h]) := by
      rw [iterators, hp]
      rfl
    have hrev : (w.iterators h).reverse =
        w.last h :: ((l.map iteratorAt).reverse ++ [iteratorAt p]) := by
      rw [hits]
      simp
    have hperm : (w.iterators h).Perm (iteratorAt p :: (w.last h :: (l.map iteratorAt).reverse)) := by
      rw [hits]
      refine List.Perm.cons _ (List.perm_append_comm.trans ?_)
      exact (List.reverse_perm _).symm.cons _
    rw [hp] at hfirst hf
    simp only [List.map_cons, List.cons_append, List.head?_cons, Option.some.injEq] at hfirst
    rw [← hfirst]
    rw [← List.isChain_reverse, hrev] at hchain
    rw [traverseBack_chain hchain (fun x hx => hi.same_false hperm hx) (by simpa using hf)]
    simp

/-- `operator--` and `operator++` undo each other. -/
theorem Inv.prev_next (hi : Inv w) {p : Handle} (hp : p ∈ w.positions h) :
    w.prev (w.next (iteratorAt p)) = iteratorAt p := by
  obtain ⟨l₁, l₂, hl⟩ := List.append_of_mem hp
  have hchain := hi.iterators_chain h
  rw [iterators, hl, List.map_append, List.map_cons, List.append_assoc, List.isChain_append] at hchain
  have hrest := hchain.2.1
  cases l₂ with
  | nil =>
    have hadj := (List.isChain_cons_cons.mp hrest).1
    rw [hadj.next, hadj.prev]
  | cons q l =>
    have hadj := (List.isChain_cons_cons.mp hrest).1
    rw [hadj.next, hadj.prev]

theorem Inv.next_prev (hi : Inv w) {it : Iterator} (hm : it ∈ w.iterators h) (hne : it ≠ w.first h) :
    w.next (w.prev it) = it := by
  obtain ⟨l₁, l₂, hl⟩ := List.append_of_mem hm
  have hfirst := hi.first_eq h
  have hchain := hi.iterators_chain h
  rw [hl] at hfirst hchain
  rcases List.eq_nil_or_concat l₁ with rfl | ⟨l, x, rfl⟩
  · exact absurd (Option.some.inj hfirst) hne
  · rw [List.concat_eq_append, List.append_assoc, List.isChain_append] at hchain
    have hadj := (List.isChain_cons_cons.mp hchain.2.1).1
    rw [hadj.prev, hadj.next]

/-- Traversal by jump counts visits the live slots and nothing else. -/
structure TraversalExact (w : World α) (h : HiveId) : Prop where
  blocks : ∀ c, (w.container h).control = some c →
    Chain w.activeLinks.next (w.control c).activeHead (w.activeBlocks h)
  nodup : (w.positions h).Nodup
  forward : ∀ fuel, (w.positions h).length < fuel →
    w.traverse (w.last h) fuel (w.first h) = some ((w.positions h).map iteratorAt)
  backward : ∀ fuel, (w.positions h).length < fuel →
    w.traverseBack (w.first h) fuel (w.last h) = some ((w.positions h).reverse.map iteratorAt)
  prev_next : ∀ p ∈ w.positions h, w.prev (w.next (iteratorAt p)) = iteratorAt p
  next_prev : ∀ it ∈ w.iterators h, it ≠ w.first h → w.next (w.prev it) = it

theorem Inv.traversalExact (hi : Inv w) (h : HiveId) : TraversalExact w h := by
  refine ⟨fun c hc => ?_, hi.positions_nodup h, fun _ hf => hi.traverse_eq h hf,
    fun _ hf => hi.traverseBack_eq h hf, fun p hp => hi.prev_next hp,
    fun it hm hne => hi.next_prev hm hne⟩
  obtain ⟨S, hS⟩ := hi h c hc
  rw [hS.activeBlocks hc]
  exact hS.represents.lists.active_chain

end World

end CCForge.Hive
