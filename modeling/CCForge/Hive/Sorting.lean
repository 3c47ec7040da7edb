import CCForge.Lib.HeapOrder
import CCForge.Hive.Capacities

/-!
# Sorting

`sort` is a heap sort of the values. The table of the positions is its only memory, the values
change places, and the comparator may throw at any of its calls.
-/

namespace CCForge.Hive

open World Effect

variable {α : Type}

inductive SortError where
  /-- The table of the positions has not been allocated. -/
  | badAlloc
  | comparator
  /-- A place without an element, or a loop that goes on for too long. -/
  | stuck
  deriving DecidableEq, Repr

/-- The state is the store and the number of comparisons so far. -/
abbrev SortM (α : Type) := Effect (World α × ℕ) SortError

/-- What the `n`-th call of a comparator returns; `none` if it throws. -/
abbrev Comparator (α : Type) := ℕ → α → α → Option Bool

/-- `comp(*at(i), *at(j))`. -/
def compareAt (comp : Comparator α) (positions : List Iterator) (i j : ℕ) : SortM α Bool := do
  let s ← get
  match positions[i]?.bind s.1.value, positions[j]?.bind s.1.value with
  | some x, some y =>
    modify fun s => (s.1, s.2 + 1)
    match comp s.2 x y with
    | some r => pure r
    | none => throw .comparator
  | _, _ => throw .stuck

/-- `swap_values(*at(i), *at(j))`. -/
def swapAt (positions : List Iterator) (i j : ℕ) : SortM α Unit := do
  let s ← get
  match positions[i]?, positions[j]? with
  | some p, some q =>
    match s.1.value p, s.1.value q with
    | some x, some y => modify fun s => ((s.1.assignAt p y).assignAt q x, s.2)
    | _, _ => throw .stuck
  | _, _ => throw .stuck

/-- The first part of the loop of `sift_down`: the larger child of `i`. -/
def largestChild (comp : Comparator α) (positions : List Iterator) (count i : ℕ) : SortM α ℕ := do
  let left := 2 * i + 1
  let right ← if left + 1 < count then compareAt comp positions left (left + 1) else pure false
  return if right then left + 1 else left

/-- The loop of `sift_down`, with a bound for its rounds. -/
def siftDown (comp : Comparator α) (positions : List Iterator) (count : ℕ) : ℕ → ℕ → SortM α Unit
  | 0, _ => throw .stuck
  | fuel + 1, i => do
    if 2 * i + 1 ≥ count then pure ()
    else
      let largest ← largestChild comp positions count i
      let sinks ← compareAt comp positions i largest
      if sinks then
        swapAt positions i largest
        siftDown comp positions count fuel largest
      else pure ()

/-- The first loop of `sort`. -/
def heapify (comp : Comparator α) (positions : List Iterator) (n : ℕ) : ℕ → SortM α Unit
  | 0 => pure ()
  | i + 1 => do
    siftDown comp positions n (n + 1) i
    heapify comp positions n i

/-- The second loop of `sort`. -/
def extract (comp : Comparator α) (positions : List Iterator) : ℕ → SortM α Unit
  | 0 => pure ()
  | 1 => pure ()
  | e + 2 => do
    swapAt positions 0 (e + 1)
    siftDown comp positions (e + 1) (e + 2) 0
    extract comp positions (e + 1)

def sort (env : Env α) (h : HiveId) (comp : Comparator α) : SortM α Unit := do
  let w := (← get).1
  if w.size h < 2 then pure ()
  else
    modify fun s => (tick s.1, s.2)
    if env.throws w.calls then throw .badAlloc
    else
      match w.traverse (w.last h) (w.size h + 1) (w.first h) with
      | none => throw .stuck
      | some positions =>
        let n := w.size h
        heapify comp positions n (n / 2)
        extract comp positions n

/-! ## The table of the positions -/

/-- The element with the number `k` is at `pos k` and has the value `a k`; nothing but the values
has changed since `w`. -/
structure Arranged (w w' : World α) (h : HiveId) (n : ℕ) (pos : ℕ → Handle) (a : ℕ → α) : Prop where
  touches : OnlyTouches w w' h
  owners : SameOwners w w'
  elements : w'.elements h = (List.range n).map fun k => (pos k, a k)

variable {env : Env α} {comp : Comparator α} {lt : α → α → Prop} {w : World α} {h : HiveId}
  {n count i j : ℕ} {pos : ℕ → Handle} {a b : ℕ → α} {s : World α × ℕ}

/-- Every list is one of numbered elements. -/
theorem exists_numbering {γ : Type} (l : List γ) (hne : l ≠ []) :
    ∃ f : ℕ → γ, l = (List.range l.length).map f := by
  refine ⟨fun k => l.getD k (l.head hne), List.ext_getElem (by simp) fun k hk _ => ?_⟩
  rw [List.getElem_map, List.getElem_range, List.getD_eq_getElem?_getD, List.getElem?_eq_getElem hk]
  rfl

/-- The element with a given number stands between the others. -/
theorem range_split {γ : Type} (f : ℕ → γ) (hi : i < n) :
    (List.range n).map f = (List.range i).map f ++ f i ::
      (List.range (n - i - 1)).map fun k => f (i + 1 + k) := by
  obtain ⟨m, rfl⟩ := Nat.exists_eq_add_of_lt hi
  rw [show i + m + 1 = i + 1 + m by omega, List.range_add, List.range_succ,
    show i + 1 + m - i - 1 = m by omega]
  simp [List.map_append, List.map_map, Function.comp_def]

theorem range_update {γ : Type} (f : ℕ → γ) (x : γ) (hi : i < n) :
    (List.range n).map (Function.update f i x) = (List.range i).map f ++ x ::
      (List.range (n - i - 1)).map fun k => f (i + 1 + k) := by
  rw [range_split _ hi, Function.update_self]
  congr 1
  · refine List.map_congr_left fun k hk => ?_
    exact Function.update_of_ne (Nat.ne_of_lt (List.mem_range.mp hk)) _ _
  · congr 1
    refine List.map_congr_left fun k _ => ?_
    exact Function.update_of_ne (by omega) _ _

namespace Arranged

theorem value (hs : Arranged w s.1 h n pos a) (hi : i < n) :
    (((List.range n).map fun k => iteratorAt (pos k))[i]?).bind s.1.value = some (a i) := by
  have hmem : (pos i, a i) ∈ s.1.elements h := by
    rw [hs.elements]
    exact List.mem_map.mpr ⟨i, List.mem_range.mpr hi, rfl⟩
  rw [List.getElem?_map, List.getElem?_range hi]
  exact hs.touches.inv.value_eq hmem

/-- A write at one place. -/
theorem assign {u : World α} (hs : Arranged w u h n pos a) (hi : i < n) (x : α) :
    Arranged w (u.assignAt (iteratorAt (pos i)) x) h n pos (Function.update a i x) := by
  have hel := hs.elements
  rw [range_split (fun k => (pos k, a k)) hi] at hel
  obtain ⟨ht, hel', -⟩ := assignAt_spec hs.touches.inv x hel
  refine ⟨hs.touches.trans ht, hs.owners.trans (same_assignAt _), hel'.trans ?_⟩
  have hpair : (fun k => (pos k, Function.update a i x k)) =
      Function.update (fun k => (pos k, a k)) i (pos i, x) := by
    funext k
    by_cases hk : k = i
    · rw [hk, Function.update_self, Function.update_self]
    · rw [Function.update_of_ne hk, Function.update_of_ne hk]
  rw [hpair, range_update _ _ hi]

theorem swapped {u : World α} (hs : Arranged w u h n pos a) (hi : i < n) (hj : j < n)
    (hne : i ≠ j) : Arranged w ((u.assignAt (iteratorAt (pos i)) (a j)).assignAt
      (iteratorAt (pos j)) (a i)) h n pos (a ∘ Equiv.swap i j) := by
  have hall := (hs.assign hi (a j)).assign hj (a i)
  have heq : a ∘ Equiv.swap i j = Function.update (Function.update a i (a j)) j (a i) := by
    funext k
    rw [Function.comp_apply, Equiv.swap_apply_def]
    by_cases hkj : k = j
    · subst hkj
      rw [Function.update_self, if_neg hne.symm, if_pos rfl]
    · rw [Function.update_of_ne hkj]
      by_cases hki : k = i
      · rw [hki, Function.update_self, if_pos rfl]
      · rw [Function.update_of_ne hki, if_neg hki, if_neg hkj]
  rw [heq]
  exact hall

end Arranged

/-! ## One comparison, one exchange -/

/-- The table that `sort` works with. -/
def table (n : ℕ) (pos : ℕ → Handle) : List Iterator :=
  (List.range n).map fun k => iteratorAt (pos k)

/-- Where the comparator returns, it decides `lt`. -/
def Agrees (comp : Comparator α) (lt : α → α → Prop) : Prop :=
  ∀ k x y r, comp k x y = some r → (r = true ↔ lt x y)

theorem compareAt_ends (hs : Arranged w s.1 h n pos a) (hi : i < n) (hj : j < n)
    {Q : Bool → World α × ℕ → Prop} {E : SortError → World α × ℕ → Prop}
    (hret : ∀ r, comp s.2 (a i) (a j) = some r → Q r (s.1, s.2 + 1))
    (hthrow : comp s.2 (a i) (a j) = none → E .comparator (s.1, s.2 + 1)) :
    Ends (compareAt comp (table n pos) i j) s Q E := by
  unfold compareAt table
  simp only [ends_bind, ends_get, hs.value hi, hs.value hj, ends_modify]
  cases hc : comp s.2 (a i) (a j) with
  | none => exact hthrow hc
  | some r => exact hret r hc

theorem swapAt_ends (hs : Arranged w s.1 h n pos a) (hi : i < n) (hj : j < n) (hne : i ≠ j)
    {Q : Unit → World α × ℕ → Prop} {E : SortError → World α × ℕ → Prop}
    (hQ : ∀ u, Arranged w u h n pos (a ∘ Equiv.swap i j) → Q () (u, s.2)) :
    Ends (swapAt (table n pos) i j) s Q E := by
  have hvi : s.1.value (iteratorAt (pos i)) = some (a i) := by
    simpa [List.getElem?_map, List.getElem?_range hi] using hs.value hi
  have hvj : s.1.value (iteratorAt (pos j)) = some (a j) := by
    simpa [List.getElem?_map, List.getElem?_range hj] using hs.value hj
  unfold swapAt table
  simp only [ends_bind, ends_get, List.getElem?_map, List.getElem?_range hi,
    List.getElem?_range hj, Option.map_some, hvi, hvj, ends_modify]
  exact hQ _ (hs.swapped hi hj hne)

/-! ## The loops -/

/-- The comparator has thrown, and the values are those of `a` in some order. -/
structure Halted (comp : Comparator α) (w : World α) (h : HiveId) (n : ℕ) (pos : ℕ → Handle)
    (a : ℕ → α) (e : SortError) (t : World α × ℕ) : Prop where
  error : e = .comparator
  threw : ∃ k x y, comp k x y = none
  arranged : ∃ b, Arranged w t.1 h n pos b ∧ Rearranged n a b

theorem Halted.of_rearranged {e : SortError} {t : World α × ℕ} (hr : Rearranged n a b)
    (hh : Halted comp w h n pos b e t) : Halted comp w h n pos a e t := by
  obtain ⟨d, hd, hbd⟩ := hh.arranged
  exact ⟨hh.error, hh.threw, d, hd, hr.trans hbd⟩

/-- A loop has put the elements below `count` in an order with the property `P`. -/
def Reordered (w : World α) (h : HiveId) (n : ℕ) (pos : ℕ → Handle) (count : ℕ) (a : ℕ → α)
    (P : (ℕ → α) → Prop) (t : World α × ℕ) : Prop :=
  ∃ b, Arranged w t.1 h n pos b ∧ Rearranged count a b ∧ P b

theorem Reordered.of_rearranged {P : (ℕ → α) → Prop} {t : World α × ℕ}
    (hr : Rearranged count a b) (ho : Reordered w h n pos count b P t) :
    Reordered w h n pos count a P t := by
  obtain ⟨d, hd, hbd, hP⟩ := ho
  exact ⟨d, hd, hr.trans hbd, hP⟩

theorem Arranged.halted {k : ℕ} {x y : α} {t : World α × ℕ} (hs : Arranged w t.1 h n pos a)
    (hc : comp k x y = none) : Halted comp w h n pos a .comparator t :=
  ⟨rfl, ⟨k, x, y, hc⟩, a, hs, .refl n a⟩

/-- The values of a hive have changed places. -/
structure Permuted (w w' : World α) (h : HiveId) : Prop where
  touches : OnlyTouches w w' h
  owners : SameOwners w w'
  positions : (w'.elements h).map Prod.fst = (w.elements h).map Prod.fst
  values : ((w'.elements h).map Prod.snd).Perm ((w.elements h).map Prod.snd)

theorem Permuted.of_silent {u : World α} (hs : Silent w u) (ho : SameOwners w u) (hi : Inv w) :
    Permuted w u h := by
  refine ⟨hs.onlyTouches hi h, ho, ?_, ?_⟩
  · rw [hs.elements hi h]
  · rw [hs.elements hi h]

theorem Arranged.permuted {u : World α} (hs : Arranged w u h n pos b) (hr : Rearranged n a b)
    (he : w.elements h = (List.range n).map fun k => (pos k, a k)) : Permuted w u h := by
  refine ⟨hs.touches, hs.owners, ?_, ?_⟩
  · rw [hs.elements, he, List.map_map, List.map_map]
    rfl
  · rw [hs.elements, he, List.map_map, List.map_map]
    exact hr.perm

section Loops

variable (lt) [IsStrictWeakOrder α lt]

theorem largestChild_ends (hn : count ≤ n) (hs : Arranged w s.1 h n pos a)
    (hleft : 2 * i + 1 < count) :
    Ends (largestChild comp (table n pos) count i) s
      (fun c t => t.1 = s.1 ∧ ChildOf i c ∧ c < count ∧
        (Agrees comp lt → LargestChild lt a i c count))
      (Halted comp w h n pos a) := by
  unfold largestChild
  by_cases hright : 2 * i + 1 + 1 < count
  · simp only [if_pos hright, ends_bind, ends_pure]
    refine compareAt_ends hs (hleft.trans_le hn) (hright.trans_le hn) (fun r hr => ?_)
      fun hc => Arranged.halted hs hc
    refine ⟨rfl, ?_, ?_, fun hagrees => ?_⟩
    · cases r
      · exact .inl rfl
      · exact .inr rfl
    · cases r
      · exact hleft
      · exact hright
    · have hlt := hagrees _ _ _ _ hr
      exact LargestChild.of_compare hleft (fun h => ⟨hright, hlt.mp h⟩)
        fun h _ hl => absurd (hlt.mpr hl) (by simp [h])
  · simp only [if_neg hright, ends_bind, ends_pure]
    refine ⟨trivial, .inl rfl, hleft, fun _ => ?_⟩
    exact LargestChild.of_compare hleft (fun h : false = true => absurd h Bool.false_ne_true)
      fun _ h => absurd h hright

/-- `sift_down` sinks an element into a heap. -/
theorem siftDown_ends (start : ℕ) {fuel : ℕ} (hn : count ≤ n) (hi : i < count) (hf : count < fuel + i)
    (hs : Arranged w s.1 h n pos a) (hhole : Agrees comp lt → HoleAt lt a start i count) :
    Ends (siftDown comp (table n pos) count fuel i) s
      (fun _ => Reordered w h n pos count a fun b => Agrees comp lt → HeapFrom lt b start count)
      (Halted comp w h n pos a) := by
  induction fuel generalizing i s a with
  | zero => omega
  | succ fuel ih =>
    rw [siftDown]
    by_cases hbottom : 2 * i + 1 ≥ count
    · rw [if_pos hbottom]
      exact ⟨a, hs, .refl count a, fun hc => (hhole hc).bottom hbottom⟩
    · rw [if_neg hbottom]
      simp only [ends_bind]
      refine (largestChild_ends lt hn hs (Nat.lt_of_not_le hbottom)).mono ?_ fun _ _ he => he
      rintro c t ⟨ht, hchild, hc, hlargest⟩
      have hbelow := hchild.below
      have hst : Arranged w t.1 h n pos a := ht ▸ hs
      refine compareAt_ends hst (hi.trans_le hn) (hc.trans_le hn) (fun r hr => ?_)
        fun hcmp => Arranged.halted hst hcmp
      -- the element sinks: the hole is now at the child, with less room below it
      cases r with
      | true =>
        simp only [if_true, ends_bind]
        refine swapAt_ends (s := (t.1, t.2 + 1)) hst (hi.trans_le hn) (hc.trans_le hn) (Nat.ne_of_lt hbelow)
          fun u hu => ?_
        have hmoved : Rearranged count a (a ∘ Equiv.swap i c) := .swap a hi hc
        refine (ih hc (by omega) hu fun hagrees => ?_).mono
          (fun _ _ ho => ho.of_rearranged hmoved) fun _ _ he => he.of_rearranged (hmoved.mono hn)
        exact (hhole hagrees).sink (hlargest hagrees) ((hagrees _ _ _ _ hr).mp rfl)
      -- no comparison can tell the hole from a heap
      | false =>
        refine ⟨a, hst, .refl count a, fun hagrees => ?_⟩
        exact (hhole hagrees).settle (hlargest hagrees) fun hl =>
          absurd ((hagrees _ _ _ _ hr).mpr hl) Bool.false_ne_true

/-- The first loop of `sort` makes a heap. -/
theorem heapify_ends (hi : i ≤ n) (hs : Arranged w s.1 h n pos a)
    (hheap : Agrees comp lt → HeapFrom lt a i n) :
    Ends (heapify comp (table n pos) n i) s
      (fun _ => Reordered w h n pos n a fun b => Agrees comp lt → HeapFrom lt b 0 n)
      (Halted comp w h n pos a) := by
  induction i generalizing s a with
  | zero => exact ⟨a, hs, .refl n a, hheap⟩
  | succ i ih =>
    rw [heapify, ends_bind]
    refine (siftDown_ends lt i (le_refl n) hi (by omega) hs fun hagrees =>
      (hheap hagrees).holeAt).mono ?_ fun _ _ he => he
    rintro - t ⟨b, hb, hab, hheap'⟩
    exact (ih (Nat.le_of_succ_le hi) hb hheap').mono (fun _ _ ho => ho.of_rearranged hab)
      fun _ _ he => he.of_rearranged hab

/-- The second loop of `sort` takes the largest element off the heap until one is left. -/
theorem extract_ends {e : ℕ} (he : e ≤ n) (hs : Arranged w s.1 h n pos a)
    (hheap : Agrees comp lt → HeapFrom lt a 0 e ∧ SortedFrom lt a e n) :
    Ends (extract comp (table n pos) e) s
      (fun _ => Reordered w h n pos n a fun b => Agrees comp lt → SortedFrom lt b 1 n)
      (Halted comp w h n pos a) := by
  have hdone : e ≤ 1 → Reordered w h n pos n a (fun b => Agrees comp lt → SortedFrom lt b 1 n) s :=
    fun hle => ⟨a, hs, .refl n a, fun hagrees i j hij hj => (hheap hagrees).2 i j hij (hle.trans hj)⟩
  induction e generalizing s a with
  | zero => exact hdone (Nat.zero_le 1)
  | succ e ih =>
    cases e with
    | zero => exact hdone (le_refl 1)
    | succ e =>
      rw [extract]
      simp only [ends_bind]
      refine swapAt_ends hs (Nat.lt_of_lt_of_le (Nat.succ_pos _) he) he (Nat.succ_ne_zero e).symm
        fun u hu => ?_
      -- only the root of the shorter heap is new, and it sinks
      have hroot : Rearranged n a (a ∘ Equiv.swap 0 (e + 1)) :=
        .swap a (Nat.lt_of_lt_of_le (Nat.succ_pos _) he) he
      refine (siftDown_ends lt 0 (Nat.le_of_succ_le he) (Nat.succ_pos e) (Nat.lt_succ_self (e + 1)) hu
        fun hagrees => ?_).mono ?_ fun _ _ hx => hx.of_rearranged hroot
      · refine ((hheap hagrees).1.of_le (Nat.le_succ (e + 1))).root fun k hk hlt => ?_
        exact congrArg a (Equiv.swap_apply_of_ne_of_ne (Nat.ne_of_gt hk) (Nat.ne_of_lt hlt))
      · rintro - t ⟨b, hb, hab, hheap'⟩
        have hall := hroot.trans (hab.mono (Nat.le_of_succ_le he))
        have hsorted : Agrees comp lt → HeapFrom lt b 0 (e + 1) ∧ SortedFrom lt b (e + 1) n :=
          fun hagrees => ⟨hheap' hagrees,
            ((hheap hagrees).2.extract (hheap hagrees).1).rearranged hab⟩
        refine (ih (Nat.le_of_succ_le he) hb hsorted fun hle => ?_).mono
          (fun _ _ ho => ho.of_rearranged hall) fun _ _ hx => hx.of_rearranged hall
        exact ⟨b, hb, .refl n b, fun hagrees i j hij hj =>
          (hsorted hagrees).2 i j hij (hle.trans hj)⟩

/-- `sort` leaves the values in some order, which is that of the comparator if it comes to its
end. -/
theorem sort_ends (hi : Inv w) :
    Ends (sort env h comp) (w, 0)
      (fun _ t => Permuted w t.1 h ∧
        (Agrees comp lt → ((t.1.elements h).map Prod.snd).Pairwise fun x y => ¬lt y x))
      fun e t => (e = .badAlloc ∧ env.throws w.calls = true ∨
        e = .comparator ∧ ∃ k x y, comp k x y = none) ∧ Permuted w t.1 h := by
  have htick : Silent w (tick w) := silent_tick
  unfold sort
  simp only [ends_bind, ends_get]
  by_cases hsmall : w.size h < 2
  · rw [if_pos hsmall]
    refine ⟨.of_silent .refl .refl hi, fun _ => ?_⟩
    obtain hnil | ⟨e, hone⟩ := hi.elements_of_size_lt_two hsmall
    · rw [hnil]
      exact .nil
    · rw [hone]
      exact List.pairwise_singleton _ _
  · rw [if_neg hsmall]
    simp only [ends_bind, ends_modify]
    by_cases hthrow : env.throws w.calls
    · rw [if_pos hthrow]
      exact ⟨.inl ⟨rfl, hthrow⟩, .of_silent htick same_tick hi⟩
    · rw [if_neg hthrow]
      have hlength : (w.positions h).length = w.size h := by
        rw [hi.size_eq h, ← hi.elements_fst h, List.length_map]
      have hne : w.elements h ≠ [] := by
        intro hnil
        rw [hi.size_eq h, hnil] at hsmall
        exact hsmall Nat.zero_lt_two
      -- the table is taken before the first comparison, and the positions stay where they are
      obtain ⟨f, hf⟩ := exists_numbering (w.elements h) hne
      rw [← hi.size_eq h] at hf
      have htable : (w.positions h).map iteratorAt = table (w.size h) fun k => (f k).1 := by
        rw [← hi.elements_fst h, hf, List.map_map, List.map_map]
        rfl
      rw [hi.traverse_eq h (hlength ▸ Nat.lt_succ_self _), htable]
      have hstart : Arranged w (tick w) h (w.size h) (fun k => (f k).1) fun k => (f k).2 := by
        refine ⟨htick.onlyTouches hi h, same_tick, ?_⟩
        rw [htick.elements hi h]
        exact hf
      simp only [ends_bind]
      have hhalt : ∀ e t, Halted comp w h (w.size h) (fun k => (f k).1) (fun k => (f k).2) e t →
          (e = .badAlloc ∧ env.throws w.calls = true ∨ e = .comparator ∧ ∃ k x y, comp k x y = none) ∧
            Permuted w t.1 h := by
        rintro e t ⟨he, hthrew, b, hb, hr⟩
        exact ⟨.inr ⟨he, hthrew⟩, hb.permuted hr hf⟩
      refine (heapify_ends lt (Nat.div_le_self _ 2) hstart fun _ => heapFrom_half lt _ _).mono ?_ hhalt
      rintro - t ⟨b, hb, hab, hheap⟩
      refine (extract_ends lt (le_refl _) hb fun hagrees =>
        ⟨hheap hagrees, sortedFrom_end lt b _⟩).mono ?_ fun e u he => hhalt e u (he.of_rearranged hab)
      rintro - u ⟨d, hd, hbd, hsorted⟩
      refine ⟨hd.permuted (hab.trans hbd) hf, fun hagrees => ?_⟩
      rw [hd.elements, List.map_map]
      exact (hsorted hagrees).pairwise

end Loops

end CCForge.Hive
