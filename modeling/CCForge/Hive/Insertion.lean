import CCForge.Hive.Allocation

/-!
# Insertion

`emplace` reuses a dead slot or the slot at `high_water` of an available block, or
activates a reserved block, or allocates a block and, for the first element, a
control. Each way adds one element to the sequence, and a call that throws adds none.
-/

namespace CCForge.Hive

namespace Block

variable {α : Type} {k : Block α} {fl : List ℕ} {v : α}

/-- The first element of a block. -/
theorem Vacant.emplaceFirst (h : k.Vacant) (hpos : 0 < k.capacity) (hsmall : k.capacity ≤ 65535) :
    (k.emplaceFirst v).Ok [] ∧ (k.emplaceFirst v).elements = [(0, v)] := by
  have hskip : (k.emplaceFirst v).skip 0 = 0 := by simp [Block.emplaceFirst, setSkip]
  have hlive : (k.emplaceFirst v).live = [0] := by
    simp [Block.live, Block.emplaceFirst, setSkip, List.range_one]
  have hdead : ∀ i, i ∉ (k.emplaceFirst v).dead := by
    rintro i ⟨h1, h2⟩
    have hi : i = 0 := by
      have hlt : i < 1 := h1
      omega
    exact h2 (by rw [hi, hskip])
  have hslot : (k.emplaceFirst v).slots 0 = .element v := by
    simp [Block.emplaceFirst, setSkip, setSlot]
  refine ⟨⟨hpos, hsmall, ?_, ?_, ⟨h.freeHead, List.nodup_nil, trivial, by simp⟩, ?_, ?_, ?_⟩, ?_⟩
  · intro i hi
    have hi0 : i = 0 := by
      have h1 : i + 1 = 1 := hi
      omega
    rw [hi0, hskip]
  · exact fun a n hr => absurd hr.start_mem (hdead a)
  · intro a
    simp only [List.not_mem_nil, false_iff]
    rintro ⟨n, hr⟩
    exact hdead a hr.start_mem
  · rw [hlive]
    rfl
  · intro i hi _
    have hi0 : i = 0 := by
      have h1 : i < 1 := hi
      omega
    exact ⟨v, by rw [hi0, hslot]⟩
  · rw [Block.elements, hlive]
    simp [Block.elementAt, hslot]

/-- A construction that throws leaves the block as it was, as far as anyone can see. -/
theorem Ok.emplaceFailed (h : k.Ok fl) : k.emplaceFailed.Ok fl ∧
    k.emplaceFailed.elements = k.elements ∧ k.emplaceFailed.liveCount = k.liveCount ∧
    k.emplaceFailed.capacity = k.capacity ∧ (k.emplaceFailed.Available ↔ k.Available) := by
  rcases emplaceFailed_eq h with he | ⟨hf, he⟩
  · rw [he]
    exact ⟨h, rfl, rfl, rfl, Iff.rfl⟩
  · rw [he]
    have hfl := h.free_nil hf
    have hslot : ∀ i, i < k.highWater → (k.setSlot k.highWater .raw).slots i = k.slots i :=
      fun i hi => Function.update_of_ne (Nat.ne_of_lt hi) _ _
    refine ⟨⟨h.bounded, h.small, h.last, h.lengths, ?_, h.runs, h.count, fun i hi hs => ?_⟩, ?_, rfl,
      rfl, Iff.rfl⟩
    · rw [hfl]
      exact ⟨hf, List.nodup_nil, trivial, by simp⟩
    · rw [hslot i hi]
      exact h.elements i hi hs
    · exact elements_congr fun i hi => hslot i (mem_live.mp hi).1

theorem Ok.available_iff (h : k.Ok fl) :
    k.Available ↔ ¬(k.highWater = k.capacity ∧ k.freeHead = none) := by
  have hb := h.bounded
  unfold Available
  cases hf : k.freeHead with
  | none =>
    simp only [Option.isSome_none, Bool.false_eq_true, false_or, and_true]
    omega
  | some a => simp

end Block

open World Effect

variable {α : Type} {env : Env α} {w w' : World α} {h : HiveId} {c : ControlId} {S : Shape} {b : BlockId} {v : α}

theorem commitAvailable_spec (hr : Represents w c S) (hf : S.floating = []) (hb : b ∈ S.available) :
    (∃ S', S'.active = S.active ∧ S'.floating = [] ∧ Represents (commitAvailable w h c b v) c S') ∧
      Keeps w (commitAvailable w h c b v) h c ∧
      Block.Inserted (w.block b) ((commitAvailable w h c b v).block b) (w.block b).emplaceIndex v ∧
      ∀ x, x ≠ b → (commitAvailable w h c b v).block x = w.block x := by
  have hact := hr.lists.available.sub b hb
  have hbS : b ∈ S.blocks := Shape.mem_blocks.mpr (.inl hact)
  obtain ⟨⟨fl, hok⟩, hlc⟩ := hr.filled.active b hact
  obtain ⟨hins, fl', hok'⟩ := Block.emplaceCommit_ok hok ((hr.filled.available b hact).mp hb) v
  -- the store after the element is in its block and counted
  obtain ⟨w₂, hw₂⟩ : ∃ w₂, w₂ = (w.modifyBlock b (·.emplaceCommit v)).modifyControl c
    fun k => { k with size := k.size + 1 } := ⟨_, rfl⟩
  have hb₂ : w₂.block b = (w.block b).emplaceCommit v := by
    rw [hw₂]
    exact Function.update_self _ _ _
  have ho₂ : ∀ x, x ≠ b → w₂.block x = w.block x := fun x hx => by
    rw [hw₂]
    exact Function.update_of_ne hx _ _
  have hl₂ : Lists w₂ c S := by
    rw [hw₂]
    exact hr.lists.of_same ⟨rfl, rfl, rfl, rfl, rfl, rfl, rfl, rfl, rfl, by simp [modifyBlock],
      by simp [modifyBlock], by simp [modifyBlock], by simp [modifyBlock], by simp [modifyBlock]⟩
  have hkeeps₂ : Keeps w w₂ h c := by
    rw [hw₂]
    exact (keeps_modifyBlock (hr.lists.mem_owned hbS) _).trans (keeps_modifyControl rfl)
  have hsize₂ : (w₂.control c).size = (w.control c).size + 1 := by
    rw [hw₂]
    simp [modifyBlock]
  have hcap₂ : (w₂.control c).capacity = (w.control c).capacity := by
    rw [hw₂]
    simp [modifyBlock]
  have hcount := hins.count
  have hcap := hins.capacity
  have hcommit : commitAvailable w h c b v =
      (if (w₂.block b).highWater = (w₂.block b).capacity ∧ (w₂.block b).freeHead = none then
        w₂.availableRemove c b else w₂).touchEnd h := by
    rw [hw₂]
    rfl
  rw [hcommit]
  by_cases hfull : (w₂.block b).highWater = (w₂.block b).capacity ∧ (w₂.block b).freeHead = none
  · -- the block is full now and leaves the available list
    rw [if_pos hfull]
    have hblock : (w₂.availableRemove c b).block = w₂.block := availableRemove_block
    have hfields := availableRemove_control (w := w₂) (c := c) (b := b)
    have hLr := hl₂.availableRemove hbS
    refine ⟨⟨{ S with available := S.available.filter (· ≠ b) }, rfl, hf,
      Represents.modifyContainer (hr.change hact hLr rfl rfl rfl ?_ ?_ ?_ ?_ ?_ ?_ ?_ ?_) _⟩,
      (hkeeps₂.trans (hl₂.keeps_availableRemove hbS)).trans keeps_touchEnd, ?_, ?_⟩
    · intro x hx
      rw [hblock, ho₂ x hx]
    · rw [hblock, hb₂]
      exact ⟨fl', hok'⟩
    · rw [hblock, hb₂]
      omega
    · rw [hblock, hb₂, hcap]
    · intro x hx
      simp [hx]
    · rw [hblock, hb₂, hok'.available_iff, ← hb₂]
      simp [hfull]
    · rw [hfields.1, hblock, hb₂]
      omega
    · rw [hfields.2.1, hcap₂]
    · show Block.Inserted _ ((w₂.availableRemove c b).block b) _ _
      rw [hblock, hb₂]
      exact hins
    · intro x hx
      show (w₂.availableRemove c b).block x = _
      rw [hblock, ho₂ x hx]
  · rw [if_neg hfull]
    refine ⟨⟨S, rfl, hf, Represents.modifyContainer (hr.change hact hl₂ rfl rfl rfl ho₂ ?_ ?_ ?_ ?_
      ?_ ?_ hcap₂) _⟩, hkeeps₂.trans keeps_touchEnd, ?_, ho₂⟩
    · rw [hb₂]
      exact ⟨fl', hok'⟩
    · rw [hb₂]
      omega
    · rw [hb₂, hcap]
    · exact fun x _ => Iff.rfl
    · rw [hb₂, hok'.available_iff, ← hb₂]
      simp [hfull, hb]
    · rw [hb₂]
      omega
    · show Block.Inserted _ (w₂.block b) _ _
      rw [hb₂]
      exact hins

/-- A vacant block that is on no list becomes the last active one. -/
theorem activate_spec (hr : Represents w c S) (hf : S.floating = [b]) (hv : (w.block b).Vacant) :
    (∃ S', S'.active = S.active ++ [b] ∧ S'.reserved = S.reserved ∧ S'.floating = [] ∧
        Represents (activate w h c b v) c S') ∧
      Keeps w (activate w h c b v) h c ∧
      ((activate w h c b v).block b).elements = [(0, v)] ∧
      ∀ x, x ≠ b → (activate w h c b v).block x = w.block x := by
  have hbS : b ∈ S.blocks := Shape.mem_blocks.mpr (.inr (.inr (by simp [hf])))
  have hcapb := hr.filled.capacity b hbS
  obtain ⟨hok, helem⟩ := hv.emplaceFirst (v := v) hcapb.1 hcapb.2
  have hnodup := hr.lists.nodup
  simp only [Shape.blocks, hf] at hnodup
  have hnb : b ∉ S.active ++ S.reserved := fun hm =>
    (List.nodup_append.mp hnodup).2.2 b hm b List.mem_cons_self rfl
  obtain ⟨w₁, hw₁⟩ : ∃ w₁, w₁ = w.modifyBlock b (·.emplaceFirst v) := ⟨_, rfl⟩
  have hb₁ : w₁.block b = (w.block b).emplaceFirst v := by
    rw [hw₁]
    exact Function.update_self _ _ _
  have ho₁ : ∀ x, x ≠ b → w₁.block x = w.block x := fun x hx => by
    rw [hw₁]
    exact Function.update_of_ne hx _ _
  have hl₁ : Lists w₁ c S := by
    rw [hw₁]
    exact hr.lists.of_same ⟨rfl, rfl, rfl, rfl, rfl, rfl, rfl, rfl, rfl, rfl, rfl, rfl, rfl, rfl⟩
  have hk₁ : Keeps w w₁ h c := by
    rw [hw₁]
    exact keeps_modifyBlock (hr.lists.mem_owned hbS) _
  have hl₂ := hl₁.activeAppend hf
  have hbS₂ : b ∈ ({ S with active := S.active ++ [b], floating := [] } : Shape).blocks :=
    Shape.mem_blocks.mpr (.inl (by simp))
  have hk₂ : Keeps w (w₁.activeAppend c b) h c := hk₁.trans (hl₁.keeps_activeAppend hbS)
  -- the available list takes the block unless one element fills it
  obtain ⟨w₃, hw₃⟩ : ∃ w₃, w₃ = if (w₁.block b).highWater ≠ (w₁.block b).capacity then
      (w₁.activeAppend c b).availableAdd c b else w₁.activeAppend c b := ⟨_, rfl⟩
  have hblock₃ : w₃.block = w₁.block := by
    rw [hw₃]
    split <;> rfl
  have hsize₃ : (w₃.control c).size = (w.control c).size ∧
      (w₃.control c).capacity = (w.control c).capacity := by
    rw [hw₃, hw₁]
    split <;> simp [World.availableAdd, World.activeAppend, modifyBlock]
  have hk₃ : Keeps w w₃ h c := by
    rw [hw₃]
    split
    · exact hk₂.trans (hl₂.keeps_availableAdd hbS₂)
    · exact hk₂
  have havail : (w₁.block b).Available ↔ (w₁.block b).highWater ≠ (w₁.block b).capacity := by
    rw [hb₁, hok.available_iff]
    have hfh : ((w.block b).emplaceFirst v).freeHead = none := hv.freeHead
    simp [hfh]
  obtain ⟨S₃, hS₃, hl₃, hav₃, havb₃⟩ : ∃ S₃ : Shape, (S₃.active = S.active ++ [b] ∧
      S₃.reserved = S.reserved ∧ S₃.floating = []) ∧ Lists w₃ c S₃ ∧
      (∀ x, x ≠ b → (x ∈ S₃.available ↔ x ∈ S.available)) ∧
      (b ∈ S₃.available ↔ (w₁.block b).Available) := by
    have hnv : b ∉ S.available := fun hm =>
      hnb (List.mem_append_left _ (hr.lists.available.sub b hm))
    rw [hw₃, havail]
    split
    · next hne =>
      refine ⟨⟨S.active ++ [b], S.reserved, b :: S.available, []⟩, ⟨rfl, rfl, rfl⟩,
        hl₂.availableAdd (by simp) hnv, fun x hx => ?_, ?_⟩
      · simp [hx]
      · simp [hne]
    · next hne =>
      exact ⟨⟨S.active ++ [b], S.reserved, S.available, []⟩, ⟨rfl, rfl, rfl⟩, hl₂,
        fun _ _ => Iff.rfl, by simp [hnv, hne]⟩
  have hactivate : activate w h c b v =
      (w₃.modifyControl c fun k => { k with size := k.size + 1 }).touchEnd h := by
    rw [hw₃, hw₁]
    rfl
  have hcaps : ∀ x, (w₁.block x).capacity = (w.block x).capacity := by
    intro x
    by_cases hx : x = b
    · rw [hx, hb₁]
      rfl
    · rw [ho₁ x hx]
  rw [hactivate]
  have hl₄ : Lists (w₃.modifyControl c fun k => { k with size := k.size + 1 }) c S₃ :=
    hl₃.of_same
      ⟨rfl, rfl, rfl, rfl, rfl, rfl, rfl, rfl, rfl, by simp, by simp, by simp, by simp, by simp⟩
  refine ⟨⟨S₃, hS₃.1, hS₃.2.1, hS₃.2.2, Represents.modifyContainer (h := h) ⟨hl₄, ⟨?_, ?_, ?_, ?_⟩,
    ?_, ?_⟩ _⟩, ?_, ?_, ?_⟩
  · intro x hx
    show (∃ fl, (w₃.block x).Ok fl) ∧ (w₃.block x).liveCount ≠ 0
    rw [hS₃.1] at hx
    rw [hblock₃]
    by_cases hxb : x = b
    · rw [hxb, hb₁]
      exact ⟨⟨[], hok⟩, Nat.one_ne_zero⟩
    · rw [ho₁ x hxb]
      exact hr.filled.active x (by simpa [hxb] using hx)
  · intro x hx
    show _ ↔ (w₃.block x).Available
    rw [hS₃.1] at hx
    rw [hblock₃]
    by_cases hxb : x = b
    · rw [hxb]
      exact havb₃
    · rw [hav₃ x hxb, ho₁ x hxb]
      exact hr.filled.available x (by simpa [hxb] using hx)
  · intro x hx
    show (w₃.block x).Vacant
    rw [hS₃.2.1] at hx
    have hxb : x ≠ b := fun he => hnb (List.mem_append_right _ (he ▸ hx))
    rw [hblock₃, ho₁ x hxb]
    exact hr.filled.reserved x hx
  · intro x hx
    show 0 < (w₃.block x).capacity ∧ (w₃.block x).capacity ≤ 65535
    rw [hblock₃, hcaps x]
    refine hr.filled.capacity x ?_
    rw [Shape.mem_blocks, hS₃.1, hS₃.2.1, hS₃.2.2] at hx
    rw [Shape.mem_blocks, hf]
    simp only [List.mem_append, List.mem_singleton, List.not_mem_nil] at hx ⊢
    tauto
  · have hsum : w₁.totalSize S.active = w.totalSize S.active :=
      totalSize_congr fun x hx => ho₁ x fun he => hnb (List.mem_append_left _ (he ▸ hx))
    have hone : (w₁.block b).liveCount = 1 := by
      rw [hb₁]
      rfl
    have htotal : w₃.totalSize S₃.active = w.totalSize S.active + 1 := by
      have h₃ : w₃.totalSize S₃.active = w₁.totalSize S₃.active :=
        totalSize_congr fun x _ => by rw [hblock₃]
      rw [h₃, hS₃.1, totalSize_append, hsum]
      simp [totalSize, hone]
    simp only [modifyControl_self]
    rw [hsize₃.1, hr.size]
    exact htotal.symm
  · have hperm : S₃.blocks.Perm S.blocks := by
      simp only [Shape.blocks, hS₃.1, hS₃.2.1, hS₃.2.2, hf, List.append_nil, List.append_assoc]
      exact List.Perm.append_left _ (List.perm_append_singleton b _).symm
    simp only [modifyControl_self]
    rw [hsize₃.2, hr.capacity, ← totalCapacity_perm hperm]
    exact (totalCapacity_changed fun x _ => by
      show (w₃.block x).capacity = _
      rw [hblock₃, hcaps x]).symm
  · exact (hk₃.trans (keeps_modifyControl rfl)).trans keeps_touchEnd
  · show (w₃.block b).elements = _
    rw [hblock₃, hb₁, helem]
  · intro x hx
    show w₃.block x = _
    rw [hblock₃, ho₁ x hx]

theorem takeReserved_spec {rest : List BlockId} (hr : Represents w c S) (hf : S.floating = [])
    (hres : S.reserved = b :: rest) :
    Represents (takeReserved w c b) c { S with reserved := rest, floating := [b] } ∧
      Keeps w (takeReserved w c b) h c := by
  have hbS : b ∈ S.blocks := Shape.mem_blocks.mpr (.inr (.inl (by simp [hres])))
  have hown := hr.lists.owned b hbS
  have hnodup := hr.lists.nodup
  have hperm : S.blocks.Perm (b :: ({ S with reserved := rest } : Shape).blocks) := by
    simp only [Shape.blocks, hres, hf, List.append_nil]
    exact List.perm_middle
  have hnb : b ∉ ({ S with reserved := rest } : Shape).blocks :=
    (List.nodup_cons.mp (hperm.nodup_iff.mp hnodup)).1
  have hna : b ∉ S.active := fun hm => hnb (Shape.mem_blocks.mpr (.inl hm))
  have hnv : b ∉ S.available := fun hm => hna (hr.lists.available.sub b hm)
  -- first the list loses the block, then the block loses its link
  obtain ⟨w₁, hw₁⟩ : ∃ w₁, w₁ = w.modifyControl c ({ · with reservedHead := w.reservedNext b }) :=
    ⟨_, rfl⟩
  have hl₁ : Lists w₁ c { S with reserved := rest } := by
    rw [hw₁]
    have hres' : S.reserved = [] ++ b :: rest := hres
    refine hr.lists.unreserve hres' (by simp) rfl (by simp) ⟨rfl, rfl, rfl, rfl, rfl⟩ ?_
    exact fun x hx _ => (hr.lists.owned x hx).of_same
      ⟨rfl, rfl, rfl, rfl, rfl, .rfl, .rfl, rfl, rfl, rfl, rfl⟩ (le_refl _)
  have htake : takeReserved w c b =
      { w₁ with reservedNext := Function.update w₁.reservedNext b none } := by
    rw [hw₁]
    rfl
  have hl₂ : Lists (takeReserved w c b) c { S with reserved := rest } := by
    have hne : ∀ x ∈ ({ S with reserved := rest } : Shape).blocks, x ≠ b := fun x hx he =>
      hnb (he ▸ hx)
    rw [htake]
    refine ⟨hl₁.active.congr rfl (fun _ hx => hx) rfl rfl rfl (fun _ _ => ⟨.rfl, rfl, rfl⟩),
      hl₁.available.congr rfl hl₁.available.sub (fun _ hx => hx) rfl (fun _ _ => ⟨.rfl, rfl⟩),
      hl₁.reserved.congr rfl (fun _ hx => hx) rfl
        (fun x hx => Function.update_of_ne (hne x hx) _ _), hl₁.nodup, fun x hx => ?_⟩
    have hox := hl₁.owned x hx
    exact ⟨hox.control, hox.known, hox.heapBlock, hox.heapSlots, hox.heapSkip⟩
  have hclean : Clean (takeReserved w c b) b := by
    refine ⟨?_, ?_, hr.lists.active.clean b hbS hna, hr.lists.available.clean b hbS hnv,
      Function.update_self _ _ _⟩
    · have hflag : w.active b = false := by simpa [hna] using hr.lists.active.flag b hbS
      exact hflag
    · have hflag : w.inAvailable b = false := by simpa [hnv] using hr.lists.available.flag b hbS
      exact hflag
  refine ⟨⟨hl₂.adopt hf hnb ⟨hown.control, hown.known, hown.heapBlock, hown.heapSlots, hown.heapSkip⟩
    hclean, ⟨hr.filled.active, hr.filled.available, fun x hx => ?_, fun x hx => ?_⟩, ?_, ?_⟩, ?_⟩
  · exact hr.filled.reserved x (by rw [hres]; exact List.mem_cons_of_mem b hx)
  · refine hr.filled.capacity x (hperm.mem_iff.mpr ?_)
    rw [Shape.mem_blocks] at hx
    rw [List.mem_cons, Shape.mem_blocks]
    simp only [List.mem_singleton] at hx
    tauto
  · rw [show ((takeReserved w c b).control c).size = (w.control c).size by simp [takeReserved]]
    exact hr.size
  · rw [show ((takeReserved w c b).control c).capacity = (w.control c).capacity by simp [takeReserved],
      hr.capacity]
    refine totalCapacity_perm (hperm.trans ?_)
    simp only [Shape.blocks, hf, List.append_nil]
    exact (List.perm_append_singleton b _).symm
  · refine ⟨⟨fun x _ hx => ?_, fun k _ hk => Function.update_of_ne hk _ _, fun _ _ _ => rfl, le_refl _,
      le_refl _⟩, by simp [takeReserved], rfl, fun _ => rfl, fun _ _ => rfl⟩
    have hxb : x ≠ b := fun he => hx (by rw [he, hown.control]; rfl)
    exact ⟨rfl, rfl, rfl, rfl, rfl, .rfl, .rfl, Function.update_of_ne hxb _ _, rfl, rfl, rfl⟩

/-! ## The whole call -/

/-- The sequence of `h` has one element more, at the handle that the call returns. -/
structure Emplaced (w w' : World α) (h : HiveId) (v : α) (it : Iterator) : Prop where
  touches : OnlyTouches w w' h
  added : ∃ p l₁ l₂, it = .at p.1 p.2 ∧ w.elements h = l₁ ++ l₂ ∧
    w'.elements h = l₁ ++ (p, v) :: l₂

/-- Nothing has happened, as far as anyone can see. -/
structure Unchanged (w w' : World α) (h : HiveId) : Prop where
  touches : OnlyTouches w w' h
  elements : w'.elements h = w.elements h

theorem Unchanged.all (hu : Unchanged w w' h) (x : HiveId) : w'.elements x = w.elements x := by
  by_cases hx : x = h
  · rw [hx]
    exact hu.elements
  · exact hu.touches.elements x hx

theorem World.Silent.unchanged (hs : Silent w w') (hi : Inv w) : Unchanged w w' h :=
  ⟨hs.onlyTouches hi h, hs.elements hi h⟩

theorem Unchanged.of_silent (hi : Inv w) (hs : Silent w w') {u : World α} (hu : Unchanged w' u h) :
    Unchanged w u h :=
  ⟨hu.touches.of_silent hi hs, by rw [hu.elements, hs.elements hi]⟩

theorem Emplaced.of_silent (hi : Inv w) (hs : Silent w w') {u : World α} {it : Iterator}
    (hu : Emplaced w' u h v it) : Emplaced w u h v it := by
  refine ⟨hu.touches.of_silent hi hs, ?_⟩
  rw [← hs.elements hi]
  exact hu.added

theorem emplaceAvailable_spec (hi : Inv w) (hc : (w.container h).control = some c)
    (hb : (w.control c).availableHead = some b) :
    Ends (emplaceAvailable env h c b v) w (fun it w' => Emplaced w w' h v it)
      (fun _ w' => Unchanged w w' h) := by
  simp only [emplaceAvailable, ends_bind, ends_get, ends_tryCatch, ends_mayThrow, ends_modify,
    ends_throw, ends_pure]
  have hs : Silent w (tick w) := silent_tick
  have hi₁ := hs.inv hi
  obtain ⟨S, hS⟩ := hi₁ h c hc
  have hmem : b ∈ S.available := hS.represents.lists.available_mem hb
  have hact := hS.represents.lists.available.sub b hmem
  split
  · -- the constructor threw
    refine Unchanged.of_silent hi hs ?_
    obtain ⟨⟨fl, hok⟩, hlc⟩ := hS.represents.filled.active b hact
    obtain ⟨hok', helem, hlc', hcap', hav'⟩ := hok.emplaceFailed
    have hbS : b ∈ S.blocks := Shape.mem_blocks.mpr (.inl hact)
    have hself : ((tick w).modifyBlock b Block.emplaceFailed).block b =
        ((tick w).block b).emplaceFailed := modifyBlock_self _
    have hother : ∀ x, x ≠ b → ((tick w).modifyBlock b Block.emplaceFailed).block x =
        (tick w).block x := fun x hx => modifyBlock_other _ hx
    have hk : Keeps (tick w) ((tick w).modifyBlock b Block.emplaceFailed) h c :=
      keeps_modifyBlock (hS.represents.lists.mem_owned hbS) _
    have hr : Represents ((tick w).modifyBlock b Block.emplaceFailed) c S := by
      refine hS.represents.change hact (hS.represents.lists.of_same
        ⟨rfl, rfl, rfl, rfl, rfl, rfl, rfl, rfl, rfl, rfl, rfl, rfl, rfl, rfl⟩) rfl rfl rfl hother ?_ ?_
        ?_ (fun _ _ => Iff.rfl) ?_ ?_ rfl
      · rw [hself]
        exact ⟨fl, hok'⟩
      · rw [hself, hlc']
        exact hlc
      · rw [hself, hcap']
      · rw [hself, hav']
        exact hS.represents.filled.available b hact
      · rw [hself, hlc']
        rfl
    obtain ⟨ht, he⟩ := hi₁.of_keeps hc hk (hS.of_keeps hk hr hS.settled)
    refine ⟨ht, ?_⟩
    rw [he, hS.elements hc]
    unfold elementsOf
    refine List.flatMap_congr fun x hx => ?_
    by_cases hxb : x = b
    · rw [hxb, hself, helem]
    · rw [hother x hxb]
  · refine Emplaced.of_silent hi hs ?_
    obtain ⟨⟨S', hact', hf', hr'⟩, hk, hins, hother⟩ :=
      commitAvailable_spec (h := h) (v := v) hS.represents hS.settled hmem
    obtain ⟨ht, he⟩ := hi₁.of_keeps hc hk (hS.of_keeps hk hr' hf')
    refine ⟨ht, ?_⟩
    obtain ⟨l₁, l₂, hold, hnew⟩ :=
      elementsOf_inserted hS.represents.lists.active_nodup hact hother hins
    refine ⟨(b, ((tick w).block b).emplaceIndex), l₁, l₂, rfl, ?_, ?_⟩
    · rw [hS.elements hc, hold]
    · rw [he, hact', hnew]

theorem elementsOf_activated {l : List BlockId} (hb : b ∉ l)
    (helem : (w'.block b).elements = [(0, v)]) (hs : ∀ x, x ≠ b → w'.block x = w.block x) :
    w'.elementsOf (l ++ [b]) = w.elementsOf l ++ [((b, 0), v)] := by
  rw [elementsOf_append, elementsOf_congr fun x hx => hs x fun he => hb (he ▸ hx)]
  simp [elementsOf, helem]

theorem emplaceReserved_spec (hi : Inv w) (hc : (w.container h).control = some c)
    (hb : (w.control c).reservedHead = some b) :
    Ends (emplaceReserved env h c b v) w (fun it w' => Emplaced w w' h v it)
      (fun _ w' => Unchanged w w' h) := by
  simp only [emplaceReserved, ends_bind, ends_tryCatch, ends_mayThrow, ends_modify, ends_throw,
    ends_pure]
  have hs : Silent w (tick w) := silent_tick
  have hi₁ := hs.inv hi
  obtain ⟨S, hS⟩ := hi₁ h c hc
  have hr := hS.represents
  obtain ⟨rest, hres⟩ : ∃ rest, S.reserved = b :: rest := hr.lists.reserved_cons hb
  have hmem : b ∈ S.reserved := by simp [hres]
  have hbS : b ∈ S.blocks := Shape.mem_blocks.mpr (.inr (.inl hmem))
  have hvac := hr.filled.reserved b hmem
  have hnact : b ∉ S.active := fun hm => hr.lists.notMem_reserved hm hmem
  split
  · -- the constructor threw: bytes of a vacant block
    refine Unchanged.of_silent hi hs ?_
    obtain ⟨w₁, hw₁⟩ : ∃ w₁, w₁ = (tick w).modifyBlock b (·.setSlot 0 .raw) := ⟨_, rfl⟩
    have hself : w₁.block b = ((tick w).block b).setSlot 0 .raw := by
      rw [hw₁]
      exact modifyBlock_self _
    have hother : ∀ x, x ≠ b → w₁.block x = (tick w).block x := fun x hx => by
      rw [hw₁]
      exact modifyBlock_other _ hx
    have hk : Keeps (tick w) w₁ h c := by
      rw [hw₁]
      exact keeps_modifyBlock (hr.lists.mem_owned hbS) _
    have hsame : SameLists (tick w) w₁ c := by
      rw [hw₁]
      exact ⟨rfl, rfl, rfl, rfl, rfl, rfl, rfl, rfl, rfl, rfl, rfl, rfl, rfl, rfl⟩
    have hcontrol : w₁.control = (tick w).control := by
      rw [hw₁]
      rfl
    have hcaps : ∀ x, (w₁.block x).capacity = ((tick w).block x).capacity := by
      intro x
      by_cases hx : x = b
      · rw [hx, hself]
        rfl
      · rw [hother x hx]
    have hactive : ∀ x ∈ S.active, w₁.block x = (tick w).block x := fun x hx =>
      hother x fun he => hnact (he ▸ hx)
    have hr₁ : Represents w₁ c S := by
      refine ⟨hr.lists.of_same hsame, ⟨fun x hx => ?_, fun x hx => ?_, fun x hx => ?_,
        fun x hx => ?_⟩, ?_, ?_⟩
      · rw [hactive x hx]
        exact hr.filled.active x hx
      · rw [hactive x hx]
        exact hr.filled.available x hx
      · by_cases hxb : x = b
        · rw [hxb, hself]
          exact ⟨hvac.liveCount, hvac.highWater, hvac.freeHead⟩
        · rw [hother x hxb]
          exact hr.filled.reserved x hx
      · rw [hcaps x]
        exact hr.filled.capacity x hx
      · rw [hcontrol, hr.size, totalSize_congr hactive]
      · rw [hcontrol, hr.capacity, totalCapacity_changed fun x _ => hcaps x]
    rw [← hw₁]
    obtain ⟨ht, he⟩ := hi₁.of_keeps hc hk (hS.of_keeps hk hr₁ hS.settled)
    refine ⟨ht, ?_⟩
    rw [he, hS.elements hc, elementsOf_congr hactive]
  · refine Emplaced.of_silent hi hs ?_
    obtain ⟨hr₁, hk₁⟩ := takeReserved_spec (h := h) hr hS.settled hres
    have hv₁ : ((takeReserved (tick w) c b).block b).Vacant := hvac
    obtain ⟨⟨S', hact', -, hf', hr'⟩, hk, helem, hother⟩ :=
      activate_spec (h := h) (v := v) hr₁ rfl hv₁
    -- The block leaves the reserved list and comes last in the active one.
    have hk' := hk₁.trans hk
    obtain ⟨ht, he⟩ := hi₁.of_keeps hc hk' (hS.of_keeps hk' hr' hf')
    refine ⟨ht, (b, 0), (tick w).elements h, [], rfl, (List.append_nil _).symm, ?_⟩
    rw [he, hact', elementsOf_activated hnact helem hother, hS.elements hc]
    rfl

/-- The capacity of a new block is positive and fits the 16-bit indices. -/
theorem growth_bounds {minimum blockMax maximum : ℕ} (current : ℕ) (h₀ : minimum ≠ 0)
    (h₁ : ¬blockMax < minimum) (h₂ : ¬minimum > maximum - current) (h₃ : blockMax ≤ 65535) :
    0 < min (min (max minimum current) blockMax) (maximum - current) ∧
      min (min (max minimum current) blockMax) (maximum - current) ≤ 65535 := by
  omega

theorem allocationBlockMax_le (w : World α) (h : HiveId) : allocationBlockMax w h ≤ 65535 := by
  unfold allocationBlockMax slotNpos
  simp only
  omega

theorem emplaceNew_spec (hi : Inv w) :
    Ends (emplaceNew env h v) w (fun it w' => Emplaced w w' h v it)
      (fun _ w' => Unchanged w w' h) := by
  simp only [emplaceNew, ends_bind, ends_get]
  split
  · exact Silent.unchanged .refl hi
  · next hguard =>
    simp only [not_or] at hguard
    obtain ⟨h₀, h₁, -, h₂⟩ := hguard
    have hcapacity := growth_bounds (w.capacity h) h₀ h₁ h₂ (allocationBlockMax_le w h)
    simp only [ends_bind, ends_tryCatch, ends_mayThrow, ends_modify, ends_throw, ends_pure]
    refine (controlOrNew_spec hi).mono ?_ (fun _ _ hs => hs.unchanged hi)
    rintro c u ⟨S, hc⟩
    refine (allocateBlock_spec _).mono ?_ ?_
    · intro b u₁ hb
      have hs₁ : Silent w (tick u₁) := (hc.silent.trans hb.silent).trans silent_tick
      have hok : HiveOk (tick u₁) h c S :=
        hc.ok.of_local (hb.silent.trans silent_tick).loc (Set.notMem_empty c)
      have hnb : b ∉ S.blocks := fun hm =>
        Nat.not_lt.mpr hb.fresh (hc.ok.represents.lists.owned b hm).known
      split
      · -- the constructor threw: the new objects are released
        have hle : w.nextBlock ≤ b := le_trans hc.silent.loc.nextBlock hb.fresh
        exact Silent.unchanged (hc.dropNewControl (hs₁.deallocateBlock hle)) hi
      · -- the block joins the control, and the control its hive
        obtain ⟨f, hf⟩ := attachNewControl_eq (h := h) (c := c) (w.container h).control.isNone (tick u₁)
        have hcontrol := attachNewControl_control (tick u₁) hc.container hs₁.container
        rw [hf] at hcontrol ⊢
        have hr₂ : Represents ((tick u₁).modifyContainer h f) c S := hok.represents.modifyContainer f
        have hown : Owned ((tick u₁).modifyContainer h f) c b :=
          ⟨hb.owned.control, hb.owned.known, hb.owned.heapBlock, hb.owned.heapSlots, hb.owned.heapSkip⟩
        have hclean : Clean ((tick u₁).modifyContainer h f) b :=
          ⟨hb.clean.active, hb.clean.inAvailable, hb.clean.activeLinks, hb.clean.availableLinks,
            hb.clean.reservedNext⟩
        have hr₃ := hr₂.adopt hok.settled hnb hown hclean (by
          show 0 < (u₁.block b).capacity ∧ (u₁.block b).capacity ≤ 65535
          rw [hb.capacity]
          exact hcapacity)
        obtain ⟨⟨S', hact', -, hf', hr'⟩, hk, helem, hother⟩ :=
          activate_spec (h := h) (v := v) hr₃ rfl hb.vacant
        have hk₂ : Local {c} u ((tick u₁).modifyContainer h f) :=
          ((hb.silent.trans silent_tick).loc.mono (Set.empty_subset _)).trans (local_modifyContainer h f)
        have hk₃ : Keeps ((tick u₁).modifyContainer h f) _ h c :=
          Keeps.trans (keeps_modifyControl rfl) hk
        have hok₂ : HiveOk ((tick u₁).modifyContainer h f) h c S :=
          ⟨hr₂, hok.settled, hok.owner, hok.known, hok.heap⟩
        have hcont : ∀ x, x ≠ h → ((tick u₁).modifyContainer h f).container x = w.container x := by
          intro x hx
          rw [← hs₁.container]
          exact Function.update_of_ne hx _ _
        obtain ⟨ht, he⟩ := hc.onlyTouches hi (hk₂.trans hk₃.loc)
          (fun x hx => (hk₃.container x hx).trans (hcont x hx)) (hok₂.of_keeps hk₃ hr' hf')
          ((hk₃.control h).trans hcontrol)
        refine ⟨ht, (b, 0), w.elements h, [], rfl, (List.append_nil _).symm, ?_⟩
        have hnact : b ∉ S.active := fun hm => hnb (Shape.mem_blocks.mpr (.inl hm))
        rw [he, hact', elementsOf_activated hnact helem hother, ← hc.elements]
        congr 1
        refine elementsOf_congr fun x hx => ?_
        have hown := hc.ok.represents.lists.owned x (Shape.mem_blocks.mpr (.inl hx))
        exact (hb.silent.loc.block x hown.known (Set.notMem_empty _)).block
    · intro e u₁ hs₁
      exact Silent.unchanged (hc.dropNewControl (hc.silent.trans hs₁)) hi

/-- `emplace` adds one element at a new handle, or throws and adds nothing. -/
theorem emplace_spec (hi : Inv w) :
    Ends (emplace env h v) w (fun it w' => Emplaced w w' h v it)
      (fun _ w' => Unchanged w w' h) := by
  simp only [emplace, ends_bind, ends_get]
  split
  · exact emplaceNew_spec hi
  · next c hc =>
    split
    · next b hb => exact emplaceAvailable_spec hi hc hb
    · split
      · next b hb => exact emplaceReserved_spec hi hc hb
      · exact emplaceNew_spec hi

end CCForge.Hive
