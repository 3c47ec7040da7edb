import CCForge.Hive.Insertion
import CCForge.Hive.Traversal

/-!
# Removal

`erase` takes one element out of the sequence. A block that loses its last element
moves to the reserved list; any other one becomes available.
-/

namespace CCForge.Hive

namespace Block

variable {α : Type} {k k' : Block α} {fl : List ℕ} {i : ℕ}

/-- A block without room has an element in every slot. -/
theorem Ok.full (h : k.Ok fl) (hn : ¬k.Available) : k.live.length = k.capacity := by
  rw [h.available_iff, not_not] at hn
  have hfl := h.free_nil hn.2
  have hall : ∀ i, i < k.highWater → k.skip i = 0 := by
    intro i hi
    by_contra hs
    obtain ⟨a, n, hrun, -, -⟩ := Ok.run_of_dead (b := k) ⟨hi, hs⟩
    have hm := (h.runs a).mpr ⟨n, hrun⟩
    rw [hfl] at hm
    simp at hm
  have hlive : k.live = List.range k.highWater := by
    rw [Block.live, List.filter_eq_self]
    intro i hi
    simpa using hall i (List.mem_range.mp hi)
  rw [hlive, List.length_range, hn.1]

/-- A block that has lost an element has room. -/
theorem Erased.available (h : k.Ok fl) (he : Erased k k' i) (hi : i ∈ k.live)
    (hok : ∃ fl', k'.Ok fl') : k'.Available := by
  obtain ⟨fl', hok'⟩ := hok
  by_contra hn
  have h1 := hok'.full hn
  have h2 := he.live_length hi
  have h3 := live_length_le (b := k)
  have h4 := h.bounded
  have h5 := he.capacity
  have h6 := List.length_pos_of_mem hi
  omega

end Block

open World

variable {α : Type} {w w' : World α} {h : HiveId} {c : ControlId} {S : Shape} {b : BlockId} {i : ℕ}

section EraseOne

theorem eraseElement_self : (w.eraseElement c b i).block b = (w.block b).erase i :=
  Function.update_self _ _ _

theorem eraseElement_other {x : BlockId} (hx : x ≠ b) : (w.eraseElement c b i).block x = w.block x :=
  Function.update_of_ne hx _ _

theorem eraseElement_size : ((w.eraseElement c b i).control c).size = (w.control c).size - 1 := by
  simp [eraseElement, modifyBlock]

theorem eraseElement_capacity :
    ((w.eraseElement c b i).control c).capacity = (w.control c).capacity := by
  simp [eraseElement, modifyBlock]

theorem eraseElement_lists (hL : Lists w c S) : Lists (w.eraseElement c b i) c S :=
  hL.of_same ⟨rfl, rfl, rfl, rfl, rfl, rfl, rfl, rfl, rfl, by simp [eraseElement, modifyBlock],
    by simp [eraseElement, modifyBlock], by simp [eraseElement, modifyBlock],
    by simp [eraseElement, modifyBlock], by simp [eraseElement, modifyBlock]⟩

theorem eraseElement_keeps (hb : w.blockControl b = c) : Keeps w (w.eraseElement c b i) h c :=
  (keeps_modifyBlock hb _).trans (keeps_modifyControl rfl)

/-- What `erase` does to the control and its sequence. -/
structure ErasedAt (w w' : World α) (h : HiveId) (c : ControlId) (S : Shape) (p : Handle) : Prop where
  keeps : Keeps w w' h c
  sequence : ∃ S', S'.floating = [] ∧ Represents w' c S' ∧
    ∃ v l₁ l₂, w.elementsOf S.active = l₁ ++ (p, v) :: l₂ ∧ w'.elementsOf S'.active = l₁ ++ l₂

variable (hr : Represents w c S) (hf : S.floating = []) (hb : b ∈ S.active)
  (hi : i ∈ (w.block b).live)
include hr hf hb hi

/-- The block keeps an element and is available afterwards. -/
theorem erase_keeping (hn : ((w.block b).erase i).liveCount ≠ 0) :
    ErasedAt w ((w.eraseElement c b i).eraseRelist c b) h c S (b, i) := by
  have hbS : b ∈ S.blocks := Shape.mem_blocks.mpr (.inl hb)
  obtain ⟨⟨fl, hok⟩, hlc⟩ := hr.filled.active b hb
  obtain ⟨hlt, hskip⟩ := Block.mem_live.mp hi
  obtain ⟨v, hv⟩ := hok.elements i hlt hskip
  obtain ⟨her, hok'⟩ := Block.erase_ok hok hi
  have hav := her.available hok hi hok'
  have hl₁ : Lists (w.eraseElement c b i) c S := eraseElement_lists hr.lists
  have hk₁ : Keeps w (w.eraseElement c b i) h c := eraseElement_keeps (hr.lists.mem_owned hbS)
  have hrelist : (w.eraseElement c b i).eraseRelist c b =
      if (w.eraseElement c b i).inAvailable b then w.eraseElement c b i
      else (w.eraseElement c b i).availableAdd c b :=
    if_neg (by rw [eraseElement_self]; exact hn)
  -- both ways the block ends up on the available list
  obtain ⟨S', hS', hl', hin, hin', hk', hblock, hsize, hcap⟩ : ∃ S' : Shape,
      (S'.active = S.active ∧ S'.reserved = S.reserved ∧ S'.floating = S.floating) ∧
      Lists ((w.eraseElement c b i).eraseRelist c b) c S' ∧ b ∈ S'.available ∧
      (∀ x, x ≠ b → (x ∈ S'.available ↔ x ∈ S.available)) ∧
      Keeps w ((w.eraseElement c b i).eraseRelist c b) h c ∧
      ((w.eraseElement c b i).eraseRelist c b).block = (w.eraseElement c b i).block ∧
      (((w.eraseElement c b i).eraseRelist c b).control c).size = (w.control c).size - 1 ∧
      (((w.eraseElement c b i).eraseRelist c b).control c).capacity = (w.control c).capacity := by
    rw [hrelist]
    split
    · next hflag =>
      exact ⟨S, ⟨rfl, rfl, rfl⟩, hl₁, (hl₁.available.flag b hbS).mp hflag, fun _ _ => Iff.rfl, hk₁, rfl,
        eraseElement_size, eraseElement_capacity⟩
    · next hflag =>
      have hnot : b ∉ S.available := fun hm => hflag ((hl₁.available.flag b hbS).mpr hm)
      refine ⟨{ S with available := b :: S.available }, ⟨rfl, rfl, rfl⟩, hl₁.availableAdd hb hnot,
        List.mem_cons_self, fun x hx => by simp [hx], hk₁.trans (hl₁.keeps_availableAdd hbS), rfl, ?_,
        ?_⟩
      · simp [World.availableAdd, eraseElement_size]
      · simp [World.availableAdd, eraseElement_capacity]
  have hself : ((w.eraseElement c b i).eraseRelist c b).block b = (w.block b).erase i := by
    rw [hblock, eraseElement_self]
  have hother : ∀ x, x ≠ b → ((w.eraseElement c b i).eraseRelist c b).block x = w.block x :=
    fun x hx => by rw [hblock, eraseElement_other hx]
  have hcount := her.count
  have hle : (w.block b).liveCount ≤ (w.control c).size := by
    rw [hr.size]
    exact List.le_sum_of_mem (List.mem_map_of_mem (f := fun b => (w.block b).liveCount) hb)
  refine ⟨hk', S', hS'.2.2.trans hf, hr.change hb hl' hS'.1 hS'.2.1 hS'.2.2 hother ?_ ?_ ?_ hin' ?_ ?_
    hcap, ?_⟩
  · rw [hself]
    exact hok'
  · rw [hself]
    exact hn
  · rw [hself, her.capacity]
  · rw [hself]
    exact iff_of_true hin hav
  · rw [hself]
    omega
  · rw [hS'.1]
    refine ⟨v, ?_⟩
    exact elementsOf_erased hr.lists.active_nodup hb hother (by rw [hself]; exact her) hi hv

/-- The block loses its last element and moves to the reserved list. -/
theorem erase_vacating (hz : ((w.block b).erase i).liveCount = 0) :
    ErasedAt w ((w.eraseElement c b i).eraseRelist c b) h c S (b, i) := by
  have hbS : b ∈ S.blocks := Shape.mem_blocks.mpr (.inl hb)
  obtain ⟨⟨fl, hok⟩, hlc⟩ := hr.filled.active b hb
  obtain ⟨hlt, hskip⟩ := Block.mem_live.mp hi
  obtain ⟨v, hv⟩ := hok.elements i hlt hskip
  obtain ⟨her, fl', hok'⟩ := Block.erase_ok hok hi
  have hrelist : (w.eraseElement c b i).eraseRelist c b =
      ((((w.eraseElement c b i).availableRemove c b).activeRemove c b).modifyBlock b
        Block.resetVacantBlock).reservedPush c b :=
    if_pos (by rw [eraseElement_self]; exact hz)
  obtain ⟨l₁, l₂, hl⟩ := List.append_of_mem hb
  have hL₁ : Lists (w.eraseElement c b i) c S := eraseElement_lists hr.lists
  have hk₁ : Keeps w (w.eraseElement c b i) h c := eraseElement_keeps (hr.lists.mem_owned hbS)
  have hL₂ := hL₁.availableRemove hbS
  have hk₂ := hk₁.trans (hL₁.keeps_availableRemove (h := h) hbS)
  have hblock₂ : ((w.eraseElement c b i).availableRemove c b).block = (w.eraseElement c b i).block :=
    availableRemove_block
  have hcontrol₂ := availableRemove_control (w := w.eraseElement c b i) (c := c) (b := b)
  generalize (w.eraseElement c b i).availableRemove c b = u₂ at hL₂ hk₂ hblock₂ hcontrol₂ hrelist
  have hL₃ := hL₂.activeRemove (b := b) hl hf (by simp)
  have hk₃ := hk₂.trans (hL₂.keeps_activeRemove (h := h) (b := b) hb)
  have hL₄ : Lists ((u₂.activeRemove c b).modifyBlock b Block.resetVacantBlock) c _ := hL₃.of_same
    ⟨rfl, rfl, rfl, rfl, rfl, rfl, rfl, rfl, rfl, rfl, rfl, rfl, rfl, rfl⟩
  have hbc : (u₂.activeRemove c b).blockControl b = c :=
    hL₃.mem_owned (Shape.mem_blocks.mpr (.inr (.inr (by simp))))
  have hk₄ := hk₃.trans (keeps_modifyBlock (h := h) hbc Block.resetVacantBlock)
  have hL₅ := hL₄.reservedPush rfl
  have hk₅ := hk₄.trans (keeps_reservedPush (h := h) (b := b) hbc)
  rw [hrelist]
  -- the blocks and the totals of the final store
  have hother : ∀ x, x ≠ b → (((u₂.activeRemove c b).modifyBlock b
      Block.resetVacantBlock).reservedPush c b).block x = w.block x := by
    intro x hx
    refine (Function.update_of_ne hx _ _).trans ?_
    show u₂.block x = _
    rw [hblock₂, eraseElement_other hx]
  have hself : (((u₂.activeRemove c b).modifyBlock b Block.resetVacantBlock).reservedPush c b).block b =
      ((w.block b).erase i).resetVacantBlock := by
    refine (Function.update_self _ _ _).trans ?_
    show (u₂.block b).resetVacantBlock = _
    rw [hblock₂, eraseElement_self]
  have hsize : ((((u₂.activeRemove c b).modifyBlock b Block.resetVacantBlock).reservedPush c b).control
      c).size = (w.control c).size - 1 := by
    simp [World.reservedPush, World.activeRemove, modifyBlock, hcontrol₂.1, eraseElement_size]
  have hcap : ((((u₂.activeRemove c b).modifyBlock b Block.resetVacantBlock).reservedPush c b).control
      c).capacity = (w.control c).capacity := by
    simp [World.reservedPush, World.activeRemove, modifyBlock, hcontrol₂.2.1, eraseElement_capacity]
  generalize ((u₂.activeRemove c b).modifyBlock b Block.resetVacantBlock).reservedPush c b = u at *
  have hnodup := hr.lists.active_nodup
  rw [hl, List.nodup_middle, List.nodup_cons] at hnodup
  have hsub : ∀ x ∈ l₁ ++ l₂, x ∈ S.active ∧ x ≠ b := by
    intro x hx
    refine ⟨?_, fun he => hnodup.1 (he ▸ hx)⟩
    rw [hl]
    simp only [List.mem_append, List.mem_cons] at hx ⊢
    tauto
  have hcaps : ∀ x, (u.block x).capacity = (w.block x).capacity := by
    intro x
    by_cases hx : x = b
    · rw [hx, hself]
      exact her.capacity
    · rw [hother x hx]
  have hperm : S.blocks.Perm (l₁ ++ l₂ ++ b :: S.reserved) := by
    simp only [Shape.blocks, hf, hl, List.append_nil, List.append_assoc]
    refine List.Perm.append_left _ ?_
    exact List.perm_middle.symm
  refine ⟨hk₅, _, rfl, ⟨hL₅, ⟨fun x hx => ?_, fun x hx => ?_, fun x hx => ?_, fun x hx => ?_⟩, ?_, ?_⟩,
    v, ?_⟩
  · rw [hother x (hsub x hx).2]
    exact hr.filled.active x (hsub x hx).1
  · rw [hother x (hsub x hx).2, ← hr.filled.available x (hsub x hx).1]
    simp [(hsub x hx).2]
  · rcases List.mem_cons.mp hx with rfl | hx
    · rw [hself]
      exact ⟨rfl, rfl, rfl⟩
    · have hxb : x ≠ b := fun he => hr.lists.notMem_reserved hb (he ▸ hx)
      rw [hother x hxb]
      exact hr.filled.reserved x hx
  · rw [hcaps x]
    refine hr.filled.capacity x (hperm.mem_iff.mpr ?_)
    simpa [Shape.blocks] using hx
  · have hone : (w.block b).liveCount = 1 := by
      have hcount := her.count
      omega
    have hsum : w.totalSize S.active = w.totalSize (l₁ ++ l₂) + 1 := by
      rw [hl]
      simp only [totalSize, List.map_append, List.map_cons, List.sum_append, List.sum_cons, hone]
      omega
    have hrest : u.totalSize (l₁ ++ l₂) = w.totalSize (l₁ ++ l₂) :=
      totalSize_congr fun x hx => hother x (hsub x hx).2
    rw [hsize, hr.size, hsum]
    exact hrest.symm
  · rw [hcap, hr.capacity, totalCapacity_perm hperm]
    refine (totalCapacity_changed fun x _ => hcaps x).symm.trans ?_
    simp [Shape.blocks]
  · have hnone : ((w.block b).erase i).elements = [] := by
      have hlen := hok'.elements_length
      rw [hz] at hlen
      exact List.length_eq_zero_iff.mp hlen
    obtain ⟨e₁, e₂, he, he'⟩ := her.elements_eq hi hv
    rw [hnone] at he'
    obtain ⟨rfl, rfl⟩ := List.append_eq_nil_iff.mp he'.symm
    refine ⟨w.elementsOf l₁, w.elementsOf l₂, ?_, ?_⟩
    · rw [hl, elementsOf_append]
      simp [elementsOf, he]
    · show u.elementsOf (l₁ ++ l₂) = _
      rw [elementsOf_congr fun x hx => hother x (hsub x hx).2, elementsOf_append]

end EraseOne

/-- A list with distinct keys splits at a key in only one way. -/
theorem split_unique {l₁ l₂ m₁ m₂ : List (Handle × α)} {p : Handle} {v v' : α}
    (hn : ((l₁ ++ (p, v) :: l₂).map Prod.fst).Nodup)
    (he : l₁ ++ (p, v) :: l₂ = m₁ ++ (p, v') :: m₂) : l₁ = m₁ ∧ v = v' ∧ l₂ = m₂ := by
  induction l₁ generalizing m₁ with
  | nil =>
    cases m₁ with
    | nil =>
      simp only [List.nil_append, List.cons.injEq, Prod.mk.injEq, true_and] at he
      exact ⟨rfl, he⟩
    | cons e m =>
      simp only [List.nil_append, List.cons_append, List.cons.injEq] at he
      obtain ⟨rfl, rfl⟩ := he
      simp at hn
  | cons d l ih =>
    cases m₁ with
    | nil =>
      simp only [List.nil_append, List.cons_append, List.cons.injEq] at he
      obtain ⟨rfl, rfl⟩ := he
      simp at hn
    | cons e m =>
      simp only [List.cons_append, List.cons.injEq] at he
      obtain ⟨rfl, he⟩ := he
      obtain ⟨rfl, hv, hl⟩ := ih (List.nodup_cons.mp (by simpa using hn)).2 he
      exact ⟨rfl, hv, hl⟩

/-- `erase` takes the element at a live position out of the sequence and returns the
position behind it. -/
theorem erase_spec (hi : Inv w) {p : Handle} (hp : p ∈ w.positions h) :
    OnlyTouches w (w.erase h (iteratorAt p)).2 h ∧ ∃ v l₁ l₂, w.elements h = l₁ ++ (p, v) :: l₂ ∧
      (w.erase h (iteratorAt p)).2.elements h = l₁ ++ l₂ ∧
      (w.erase h (iteratorAt p)).1 = (w.erase h (iteratorAt p)).2.startOf h l₂ := by
  obtain ⟨b, i⟩ := p
  cases hc : (w.container h).control with
  | none => simp [positions, activeBlocks, hc, slotsOf] at hp
  | some c =>
    obtain ⟨S, hS⟩ := hi h c hc
    obtain ⟨hb, hlive⟩ : b ∈ S.active ∧ i ∈ (w.block b).live := by
      rw [positions, hS.activeBlocks hc, slotsOf, List.mem_flatMap] at hp
      obtain ⟨a, ha, hm⟩ := hp
      obtain ⟨j, hj, he⟩ := List.mem_map.mp hm
      cases he
      exact ⟨ha, hj⟩
    have hcore : ErasedAt w ((w.eraseElement c b i).eraseRelist c b) h c S (b, i) := by
      by_cases hz : ((w.block b).erase i).liveCount = 0
      · exact erase_vacating hS.represents hS.settled hb hlive hz
      · exact erase_keeping hS.represents hS.settled hb hlive hz
    obtain ⟨hk, S', hf', hr', v, l₁, l₂, hold, hnew⟩ := hcore
    have he : w.elements h = l₁ ++ ((b, i), v) :: l₂ := by rw [hS.elements hc, hold]
    have hnext := hi.next_eq he
    have hatEnd : (w.startOf h l₂).block = none → w.erase h (iteratorAt (b, i)) =
        ((((w.eraseElement c b i).eraseRelist c b).touchEnd h).last h,
          ((w.eraseElement c b i).eraseRelist c b).touchEnd h) := by
      intro hblock
      rw [← hnext] at hblock
      simp only [World.erase, iteratorAt, Iterator.at, hc] at hblock ⊢
      rw [hblock]
    have hinside : ∀ b', (w.startOf h l₂).block = some b' → w.erase h (iteratorAt (b, i)) =
        (.at b' (w.startOf h l₂).index, (w.eraseElement c b i).eraseRelist c b) := by
      intro b' hblock
      rw [← hnext] at hblock ⊢
      simp only [World.erase, iteratorAt, Iterator.at, hc] at hblock ⊢
      rw [hblock]
    cases l₂ with
    | nil =>
      rw [hatEnd rfl]
      have hk' := hk.trans (keeps_touchEnd (h := h) (c := c))
      obtain ⟨ht, hel⟩ := hi.of_keeps hc hk' (hS.of_keeps hk' (hr'.modifyContainer _) hf')
      refine ⟨ht, v, l₁, [], he, ?_, rfl⟩
      exact hel.trans hnew
    | cons e l =>
      rw [hinside _ rfl]
      obtain ⟨ht, hel⟩ := hi.of_keeps hc hk (hS.of_keeps hk hr' hf')
      exact ⟨ht, v, l₁, e :: l, he, hel.trans hnew, rfl⟩

theorem World.OnlyTouches.trans {u : World α} (ht : OnlyTouches w w' h) (ht' : OnlyTouches w' u h) :
    OnlyTouches w u h :=
  ⟨ht'.inv, fun x hx => (ht'.container x hx).trans (ht.container x hx),
    fun x hx => (ht'.elements x hx).trans (ht.elements x hx)⟩

/-- The loop of `erase(first, last)` removes the elements before the rest `l₃`. -/
theorem eraseWhile_spec (continues : Iterator → Bool) {l₁ l₃ : List (Handle × α)}
    (hstop : ∀ u : World α, continues (u.startOf h l₃) = false)
    (hgo : ∀ q, q ∉ l₃.map Prod.fst → continues (iteratorAt q) = true)
    {l₂ : List (Handle × α)} {fuel : ℕ} (hi : Inv w) (he : w.elements h = l₁ ++ (l₂ ++ l₃))
    (hf : l₂.length ≤ fuel) :
    (l₂ = [] ∧ eraseWhile h continues fuel (w.startOf h (l₂ ++ l₃)) w = w) ∨
      OnlyTouches w (eraseWhile h continues fuel (w.startOf h (l₂ ++ l₃)) w) h ∧
      (eraseWhile h continues fuel (w.startOf h (l₂ ++ l₃)) w).elements h = l₁ ++ l₃ := by
  induction l₂ generalizing w fuel with
  | nil =>
    left
    refine ⟨rfl, ?_⟩
    cases fuel with
    | zero => rfl
    | succ n =>
      rw [eraseWhile, List.nil_append, hstop w]
      rfl
  | cons e l ih =>
    right
    obtain ⟨p, v⟩ := e
    cases fuel with
    | zero => simp at hf
    | succ n =>
      have hnodup := hi.positions_nodup h
      rw [← hi.elements_fst h, he] at hnodup
      have hmem : p ∈ w.positions h := by
        rw [← hi.elements_fst h, he]
        simp
      have hout : p ∉ l₃.map Prod.fst := by
        rw [List.map_append, List.cons_append, List.map_cons, List.nodup_middle, List.nodup_cons]
          at hnodup
        exact fun hm => hnodup.1 (List.mem_append_right _ (by
          rw [List.map_append]
          exact List.mem_append_right _ hm))
      obtain ⟨ht, v', m₁, m₂, hm, hm', hit⟩ := erase_spec hi hmem
      -- the split at `p` is the given one, since handles are distinct
      obtain ⟨rfl, -, rfl⟩ : l₁ = m₁ ∧ v = v' ∧ l ++ l₃ = m₂ := by
        rw [he] at hm
        exact split_unique hnodup hm
      have hstep : eraseWhile h continues (n + 1) (w.startOf h ((p, v) :: l ++ l₃)) w =
          eraseWhile h continues n ((w.erase h (iteratorAt p)).2.startOf h (l ++ l₃))
            (w.erase h (iteratorAt p)).2 := by
        rw [eraseWhile, List.cons_append]
        have hc : continues (w.startOf h ((p, v) :: (l ++ l₃))) = true := hgo p hout
        rw [if_pos hc, ← hit]
        rfl
      rw [hstep]
      rcases ih ht.inv hm' (by simpa using hf) with ⟨rfl, hw⟩ | ⟨ht', he'⟩
      · rw [hw]
        exact ⟨ht, hm'⟩
      · exact ⟨ht.trans ht', he'⟩

/-- `erase(first, last)` takes out the elements from `first` up to `last` and returns
`last`. -/
theorem eraseRange_spec (hi : Inv w) {l₁ l₂ l₃ : List (Handle × α)}
    (he : w.elements h = l₁ ++ (l₂ ++ l₃)) :
    OnlyTouches w (w.eraseRange h (w.startOf h (l₂ ++ l₃)) (w.startOf h l₃)).2 h ∧
      (w.eraseRange h (w.startOf h (l₂ ++ l₃)) (w.startOf h l₃)).2.elements h = l₁ ++ l₃ ∧
      (w.eraseRange h (w.startOf h (l₂ ++ l₃)) (w.startOf h l₃)).1 =
        (w.eraseRange h (w.startOf h (l₂ ++ l₃)) (w.startOf h l₃)).2.startOf h l₃ := by
  have hfuel : l₂.length ≤ w.size h := by
    rw [hi.size_eq h, he]
    simp only [List.length_append]
    omega
  have hdone : ∀ u : World α, (l₂ = [] ∧ u = w) ∨ OnlyTouches w u h ∧ u.elements h = l₁ ++ l₃ →
      OnlyTouches w u h ∧ u.elements h = l₁ ++ l₃ := by
    rintro u (⟨rfl, rfl⟩ | hu)
    · exact ⟨Silent.onlyTouches .refl hi h, he⟩
    · exact hu
  cases l₃ with
  | nil =>
    obtain ⟨ht, hel⟩ := hdone _ (eraseWhile_spec (fun it => it.block.isSome) (fun _ => rfl)
      (fun _ _ => rfl) hi he hfuel)
    exact ⟨ht, hel, rfl⟩
  | cons e l =>
    obtain ⟨q, v⟩ := e
    have hgo : ∀ x, x ∉ ((q, v) :: l).map Prod.fst →
        decide ((iteratorAt x).block ≠ some q.1 ∨ (iteratorAt x).index ≠ q.2) = true := by
      intro x hx
      have hne : x ≠ q := fun hxq => hx (by simp [hxq])
      simp only [iteratorAt, Iterator.at, ne_eq, Option.some.injEq, decide_eq_true_eq]
      by_contra hcon
      push Not at hcon
      exact hne (Prod.ext hcon.1 hcon.2)
    obtain ⟨ht, hel⟩ := hdone _ (eraseWhile_spec
      (fun it => it.block ≠ some q.1 ∨ it.index ≠ q.2) (by simp [startOf, iteratorAt, Iterator.at])
      hgo hi he hfuel)
    exact ⟨ht, hel, rfl⟩

end CCForge.Hive
