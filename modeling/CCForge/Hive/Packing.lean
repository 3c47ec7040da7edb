import CCForge.Hive.Planning

/-!
# Filling a hive in order

A local hive is filled from reserved blocks. It has no free slot below a `high_water`, so that each
element goes behind all others, and nothing is allocated.
-/

namespace CCForge.Hive

namespace Block

variable {α : Type} {k : Block α} {v : α}

theorem emplaceFailed_capacity : k.emplaceFailed.capacity = k.capacity := by
  unfold emplaceFailed
  simp only
  split <;> rfl

theorem elements_emplaceCommit (hf : k.freeHead = none) :
    (k.emplaceCommit v).elements = k.elements ++ [(k.highWater, v)] := by
  rw [emplaceCommit_eq hf]
  have hne : ∀ i ∈ List.range k.highWater, i ≠ k.highWater := fun i hi =>
    Nat.ne_of_lt (List.mem_range.mp hi)
  have hlive : ({ (k.setSlot k.highWater (.element v)).setSkip k.highWater 0 with
      highWater := k.highWater + 1, liveCount := k.liveCount + 1 } : Block α).live =
      k.live ++ [k.highWater] := by
    simp only [Block.live, setSkip, setSlot, List.range_succ, List.filter_append]
    congr 1
    · refine List.filter_congr fun i hi => ?_
      simp only [Function.update_of_ne (hne i hi)]
    · simp
  rw [Block.elements, hlive, List.filterMap_append]
  congr 1
  · refine elements_congr fun i hi => ?_
    exact Function.update_of_ne (hne i (List.mem_of_mem_filter hi)) _ _
  · rw [List.filterMap_cons_some (elementAt_eq (v := v) (Function.update_self _ _ _))]
    rfl

end Block

open World Effect

variable {α : Type} {env : Env α} {w w' u v : World α} {h : HiveId} {c : ControlId} {S : Shape}
  {b : BlockId} {value : α}

/-! ## Blocks without gaps -/

/-- No block has a free slot below its `high_water`, and all but the last one are full. -/
structure PackedBlocks (w : World α) (l : List BlockId) : Prop where
  noFree : ∀ b ∈ l, (w.block b).freeHead = none
  full : ∀ b ∈ l.dropLast, (w.block b).highWater = (w.block b).capacity

def Packed (w : World α) (h : HiveId) : Prop := PackedBlocks w (w.activeBlocks h)

theorem PackedBlocks.congr {l : List BlockId} (hp : PackedBlocks w l)
    (hf : ∀ b ∈ l, (w'.block b).freeHead = (w.block b).freeHead)
    (hw : ∀ b ∈ l, (w'.block b).highWater = (w.block b).highWater)
    (hc : ∀ b ∈ l, (w'.block b).capacity = (w.block b).capacity) : PackedBlocks w' l := by
  refine ⟨fun b hb => (hf b hb).trans (hp.noFree b hb), fun b hb => ?_⟩
  have hmem := List.mem_of_mem_dropLast hb
  rw [hw b hmem, hc b hmem]
  exact hp.full b hb

/-- Only the last block changes. -/
theorem PackedBlocks.concat {l : List BlockId}
    (hfull : ∀ x ∈ l, (w.block x).freeHead = none ∧ (w.block x).highWater = (w.block x).capacity)
    (hb : b ∉ l) (hs : ∀ x, x ≠ b → w'.block x = w.block x) (hf : (w'.block b).freeHead = none) :
    PackedBlocks w' (l ++ [b]) := by
  have hother : ∀ x ∈ l, w'.block x = w.block x := fun x hx => hs x fun he => hb (he ▸ hx)
  refine ⟨fun x hx => ?_, fun x hx => ?_⟩
  · obtain hx | hx := List.mem_append.mp hx
    · rw [hother x hx]
      exact (hfull x hx).1
    · rw [List.mem_singleton.mp hx]
      exact hf
  · rw [List.dropLast_concat] at hx
    rw [hother x hx]
    exact (hfull x hx).2

/-- The only block with room is the last one. -/
theorem PackedBlocks.last {l : List BlockId} (hp : PackedBlocks w l) (hb : b ∈ l)
    (hroom : (w.block b).highWater < (w.block b).capacity) : ∃ m, l = m ++ [b] ∧
      ∀ x ∈ m, (w.block x).freeHead = none ∧ (w.block x).highWater = (w.block x).capacity := by
  obtain rfl | ⟨m, a, rfl⟩ := List.eq_nil_or_concat l
  · exact absurd hb List.not_mem_nil
  -- only the last block has room, so `b` is that one
  · have hfull : ∀ x ∈ m, (w.block x).highWater = (w.block x).capacity := fun x hx =>
      hp.full x (by rw [List.concat_eq_append, List.dropLast_concat]; exact hx)
    have hba : b = a := by
      rw [List.concat_eq_append, List.mem_append, List.mem_singleton] at hb
      exact hb.resolve_left fun hm => Nat.ne_of_lt hroom (hfull b hm)
    subst hba
    exact ⟨m, List.concat_eq_append, fun x hx => ⟨hp.noFree x (by simp [hx]), hfull x hx⟩⟩

/-- Without an available block, all blocks are full. -/
theorem World.Represents.all_full (hr : Represents w c S) (hav : S.available = []) {x : BlockId}
    (hx : x ∈ S.active) :
    (w.block x).freeHead = none ∧ (w.block x).highWater = (w.block x).capacity := by
  obtain ⟨⟨fl, hok⟩, -⟩ := hr.filled.active x hx
  have hno : ¬(w.block x).Available := by
    rw [← hr.filled.available x hx, hav]
    exact List.not_mem_nil
  unfold Block.Available at hno
  rw [not_or] at hno
  exact ⟨by simpa using hno.1, le_antisymm hok.bounded (Nat.le_of_not_lt hno.2)⟩

/-- A hive without elements has no active block. -/
theorem World.Inv.packed_nil (hi : Inv w) (he : w.elements h = []) : Packed w h := by
  have hnil : w.activeBlocks h = [] := by
    cases hc : (w.container h).control with
    | none => simp [World.activeBlocks, hc]
    | some c =>
      obtain ⟨S, hS⟩ := hi h c hc
      rw [hS.activeBlocks hc]
      by_contra hne
      obtain ⟨b, hb⟩ := List.exists_mem_of_ne_nil _ hne
      obtain ⟨-, hlc⟩ := hS.represents.filled.active b hb
      have hsum : w.totalSize S.active = 0 := by
        have hsize := hi.size_eq h
        rw [he] at hsize
        rw [← hS.represents.size]
        simpa [World.size, hc] using hsize
      have hle : (w.block b).liveCount ≤ w.totalSize S.active :=
        List.le_sum_of_mem (List.mem_map.mpr ⟨b, hb, rfl⟩)
      omega
  unfold Packed
  rw [hnil]
  exact ⟨fun _ hb => absurd hb List.not_mem_nil, fun _ hb => absurd hb (by simp)⟩

/-! ## Insertion without allocation -/

/-- Nothing has been allocated or released, and only the control of `h` has changed. As many calls
have been made as could throw. -/
structure Quiet (w u : World α) (h : HiveId) (n : ℕ) : Prop where
  owners : SameOwners w u
  calls : u.calls = w.calls + n
  others : ∀ k, (w.container h).control ≠ some k → u.control k = w.control k

theorem Quiet.refl : Quiet w w h 0 := ⟨.refl, rfl, fun _ _ => rfl⟩

theorem Quiet.trans {m n : ℕ} (hq : Quiet w u h m) (hq' : Quiet u v h n) : Quiet w v h (m + n) := by
  refine ⟨hq.owners.trans hq'.owners, ?_, fun k hk => ?_⟩
  · rw [hq'.calls, hq.calls, Nat.add_assoc]
  · rw [hq'.others k (by rw [hq.owners.control]; exact hk), hq.others k hk]

theorem Quiet.capacity {n : ℕ} (hq : Quiet w u h n) (y : HiveId) : u.capacity y = w.capacity y := by
  unfold World.capacity
  rw [hq.owners.control]
  split
  · exact hq.owners.blocks.total _
  · rfl

theorem quiet_tick : Quiet w (tick w) h 1 := ⟨same_tick, rfl, fun _ _ => rfl⟩

theorem quiet_modifyBlock {f : Block α → Block α}
    (hf : (f (w.block b)).capacity = (w.block b).capacity) : Quiet w (w.modifyBlock b f) h 0 :=
  ⟨same_modifyBlock hf, rfl, fun _ _ => rfl⟩

theorem quiet_assignAt (it : Iterator) : Quiet w (w.assignAt it value) h 0 := by
  refine ⟨same_assignAt it, ?_, fun k _ => ?_⟩
  · unfold World.assignAt
    split <;> rfl
  · unfold World.assignAt
    split <;> rfl

theorem quiet_commitAvailable (hc : (w.container h).control = some c) :
    Quiet w (commitAvailable w h c b value) h 0 := by
  have hne : ∀ k, (w.container h).control ≠ some k → k ≠ c := fun k hk he => hk (he ▸ hc)
  refine ⟨same_commitAvailable, ?_, fun k hk => ?_⟩
  · unfold commitAvailable World.availableRemove
    simp only
    split
    · split <;> rfl
    · rfl
  · unfold commitAvailable World.availableRemove
    simp only
    split
    · split
      · simp [World.touchEnd, World.modifyContainer, World.modifyControl, World.modifyBlock, hne k hk]
      · simp [World.touchEnd, World.modifyContainer, World.modifyControl, World.modifyBlock, hne k hk]
    · simp [World.touchEnd, World.modifyContainer, World.modifyControl, World.modifyBlock, hne k hk]

theorem quiet_takeReserved (hc : (w.container h).control = some c) :
    Quiet w (takeReserved w c b) h 0 := by
  have hne : ∀ k, (w.container h).control ≠ some k → k ≠ c := fun k hk he => hk (he ▸ hc)
  exact ⟨same_takeReserved, rfl, fun k hk => Function.update_of_ne (hne k hk) _ _⟩

theorem quiet_activate (hc : (w.container h).control = some c) :
    Quiet w (activate w h c b value) h 0 := by
  have hne : ∀ k, (w.container h).control ≠ some k → k ≠ c := fun k hk he => hk (he ▸ hc)
  refine ⟨same_activate, ?_, fun k hk => ?_⟩
  · unfold activate
    simp only
    split <;> rfl
  · unfold activate
    simp only
    split
    · simp [World.touchEnd, World.modifyContainer, World.modifyControl, World.modifyBlock,
        World.activeAppend, World.availableAdd, hne k hk]
    · simp [World.touchEnd, World.modifyContainer, World.modifyControl, World.modifyBlock,
        World.activeAppend, hne k hk]

theorem commitAvailable_block :
    (commitAvailable w h c b value).block b = (w.block b).emplaceCommit value := by
  have hself : (w.modifyBlock b (·.emplaceCommit value)).block b = _ := modifyBlock_self _
  unfold commitAvailable
  simp only
  split
  · exact (congrFun availableRemove_block b).trans hself
  · exact hself

theorem activate_block : (activate w h c b value).block b = (w.block b).emplaceFirst value := by
  have hself : (w.modifyBlock b (·.emplaceFirst value)).block b = _ := modifyBlock_self _
  unfold activate
  simp only
  split <;> exact hself

/-- The new element is behind all others. -/
structure Appends (w u : World α) (h : HiveId) (value : α) : Prop where
  packed : Packed u h
  elements : ∃ p, u.elements h = w.elements h ++ [(p, value)]

/-- The element goes to the last block. -/
theorem appends_available (hi : Inv w) (hp : Packed w h) (hc : (w.container h).control = some c)
    (hb : (w.control c).availableHead = some b) :
    Appends w (commitAvailable w h c b value) h value := by
  obtain ⟨S, hS⟩ := hi h c hc
  have hr := hS.represents
  have hmem := hr.lists.available_mem hb
  have hact := hr.lists.available.sub b hmem
  unfold Packed at hp
  rw [hS.activeBlocks hc] at hp
  have hfree := hp.noFree b hact
  have hroom : (w.block b).highWater < (w.block b).capacity := by
    simpa [Block.Available, hfree] using (hr.filled.available b hact).mp hmem
  obtain ⟨m, hm, hfull⟩ := hp.last hact hroom
  obtain ⟨⟨S', hact', hf', hr'⟩, hk, -, hother⟩ :=
    commitAvailable_spec (h := h) (v := value) hr hS.settled hmem
  have hblock : (commitAvailable w h c b value).block b = _ := commitAvailable_block
  have hc' := (hk.control h).trans hc
  have hS' := hS.of_keeps hk hr' hf'
  have hbm : b ∉ m := by
    have hn := hr.lists.active_nodup
    rw [hm, List.nodup_append] at hn
    exact fun hmb => hn.2.2 b hmb b List.mem_cons_self rfl
  constructor
  · unfold Packed
    rw [hS'.activeBlocks hc', hact', hm]
    refine PackedBlocks.concat hfull hbm hother ?_
    rw [hblock, Block.emplaceCommit_eq hfree]
    exact hfree
  · refine ⟨(b, (w.block b).highWater), ?_⟩
    rw [hS'.elements hc', hS.elements hc, hact', hm, elementsOf_append, elementsOf_append,
      elementsOf_congr fun x hx => hother x fun he => hbm (he ▸ hx), List.append_assoc]
    congr 1
    simp [elementsOf, hblock, Block.elements_emplaceCommit hfree]

/-- The element goes to a block that becomes the last one. -/
theorem appends_reserved (hi : Inv w) (hc : (w.container h).control = some c)
    (hav : (w.control c).availableHead = none) (hb : (w.control c).reservedHead = some b) :
    Appends w (activate (takeReserved w c b) h c b value) h value := by
  obtain ⟨S, hS⟩ := hi h c hc
  have hr := hS.represents
  have hnil := hr.lists.available_nil hav
  obtain ⟨rest, hrest⟩ := hr.lists.reserved_cons hb
  have hmem : b ∈ S.reserved := by simp [hrest]
  have hvac := hr.filled.reserved b hmem
  obtain ⟨hr₁, hk₁⟩ := takeReserved_spec (h := h) hr hS.settled hrest
  obtain ⟨⟨S', hact', -, hf', hr'⟩, hk, helem, hother⟩ :=
    activate_spec (h := h) (v := value) hr₁ rfl hvac
  have hblock : (activate (takeReserved w c b) h c b value).block b = _ := activate_block
  have hkeeps := hk₁.trans hk
  have hc' := (hkeeps.control h).trans hc
  have hS' := hS.of_keeps hkeeps hr' hf'
  have hnact : b ∉ S.active := fun hm => hr.lists.notMem_reserved hm hmem
  constructor
  · unfold Packed
    rw [hS'.activeBlocks hc', hact']
    refine PackedBlocks.concat (w := w) (fun x hx => hr.all_full hnil hx) hnact hother ?_
    rw [hblock]
    exact hvac.freeHead
  · refine ⟨(b, 0), ?_⟩
    rw [hS'.elements hc', hS.elements hc, hact', elementsOf_activated hnact helem hother]
    rfl

/-- With room left, `emplace` allocates nothing, and the new element is behind all others. -/
theorem emplace_packed (hi : Inv w) (hp : Packed w h) (hlt : w.size h < w.capacity h) :
    Ends (emplace env h value) w (fun _ u => Appends w u h value ∧ Quiet w u h 1)
      (fun _ u => Quiet w u h 1) := by
  simp only [emplace, ends_bind, ends_get]
  cases hc : (w.container h).control with
  -- without a control there is no capacity
  | none => simp [World.capacity, hc] at hlt
  | some c =>
    have hroom := hi.room hc hlt
    have hsilent : Silent w (tick w) := silent_tick
    have hi' := hsilent.inv hi
    have hp' : Packed (tick w) h := ⟨hp.noFree, hp.full⟩
    have hc' : ((tick w).container h).control = some c := hc
    simp only
    cases hav : (w.control c).availableHead with
    | some b =>
      simp only [emplaceAvailable, ends_bind, ends_get, ends_tryCatch, ends_mayThrow, ends_modify,
        ends_throw, ends_pure]
      split
      · exact quiet_tick.trans (quiet_modifyBlock Block.emplaceFailed_capacity)
      · have ha : Appends (tick w) _ h value := appends_available hi' hp' hc' hav
        exact ⟨⟨ha.packed, ha.elements⟩, quiet_tick.trans (quiet_commitAvailable hc')⟩
    | none =>
      cases hres : (w.control c).reservedHead with
      -- the branch that allocates: with room left it is not reached
      | none => simp [hav, hres] at hroom
      | some b =>
        simp only [emplaceReserved, ends_bind, ends_tryCatch, ends_mayThrow, ends_modify, ends_throw,
          ends_pure]
        split
        · exact quiet_tick.trans (quiet_modifyBlock rfl)
        · have ha : Appends (tick w) _ h value := appends_reserved hi' hc' hav hres
          have hctake : ((takeReserved (tick w) c b).container h).control = some c := hc
          exact ⟨⟨ha.packed, ha.elements⟩,
            (quiet_tick.trans (quiet_takeReserved hc')).trans (quiet_activate hctake)⟩

theorem Packed.assignAt (hp : Packed w h) (it : Iterator) : Packed (w.assignAt it value) h := by
  unfold World.assignAt
  split
  · exact hp
  · next b hb =>
    have hchange : ∀ x, ((w.modifyBlock b (·.setSlot it.index (.element value))).block x).freeHead =
          (w.block x).freeHead ∧
        ((w.modifyBlock b (·.setSlot it.index (.element value))).block x).highWater =
          (w.block x).highWater ∧
        ((w.modifyBlock b (·.setSlot it.index (.element value))).block x).capacity =
          (w.block x).capacity := by
      intro x
      by_cases hx : x = b
      · subst hx
        rw [modifyBlock_self]
        exact ⟨rfl, rfl, rfl⟩
      · rw [modifyBlock_other _ hx]
        exact ⟨rfl, rfl, rfl⟩
    exact PackedBlocks.congr hp (fun x _ => (hchange x).1) (fun x _ => (hchange x).2.1)
      fun x _ => (hchange x).2.2

/-! ## The moves of a rebuild -/

/-- The elements `l` have moved to the local hive, in this order; `u` is the state before. -/
structure InOrder (u v : World α) (l : List (Handle × α)) : Prop where
  packed : Packed v .rebuilt
  values : (v.elements .rebuilt).map Prod.snd = l.map Prod.snd
  quiet : Quiet u v .rebuilt l.length

/-- The next element moves behind those that have moved, and nothing is allocated. -/
theorem InOrder.step {t : World α} {l₁ l₂ : List (Handle × α)} {p : Handle} {x : α}
    (hh : h ≠ .rebuilt) (ht : Transfer env u t h l₁ ((p, x) :: l₂)) (ho : InOrder u t l₁) :
    Ends (emplace env .rebuilt x) t
      (fun _ v => InOrder u (v.assignAt (iteratorAt p) (env.moved x)) (l₁ ++ [(p, x)]))
      (fun _ v => Quiet u (v.assignAt (iteratorAt p) (env.partlyMoved x)) .rebuilt
        (l₁.length + 1)) := by
  refine ((emplace_spec ht.inv).and (emplace_packed ht.inv ho.packed ht.size_lt)).mono ?_ ?_
  · rintro it v ⟨he, ha, hq⟩
    have hsrc : v.elements h = l₁.map (fun e => (e.1, env.moved e.2)) ++ (p, x) :: l₂ := by
      rw [he.touches.elements h hh, ht.source]
    obtain ⟨ht', -, -⟩ := assignAt_spec he.touches.inv (env.moved x) hsrc
    refine ⟨ha.packed.assignAt _, ?_, ?_⟩
    · obtain ⟨q, hel⟩ := ha.elements
      rw [ht'.elements .rebuilt (Ne.symm hh), hel, List.map_append, ho.values, List.map_append]
      rfl
    · rw [List.length_append, List.length_singleton]
      exact (ho.quiet.trans hq).trans (quiet_assignAt _)
  · rintro e v ⟨-, hq⟩
    exact (ho.quiet.trans hq).trans (quiet_assignAt _)

/-- All elements move to the local hive in order; only their own constructors can throw. -/
theorem appendMoveTo_inOrder (hh : h ≠ .rebuilt) (hready : Ready w u h) :
    Ends (appendMoveTo env .rebuilt (u.last h) (u.size h + 1) (u.first h)) u
      (fun _ v => Transfer env u v h (u.elements h) [] ∧ InOrder u v (u.elements h))
      (fun e v => Interrupted env e u v h ∧ e = .element ∧
        ∃ n ≤ u.size h, Quiet u v .rebuilt n) := by
  have hi := hready.inv
  have hstart : InOrder u u ([] : List (Handle × α)) := by
    refine ⟨hi.packed_nil hready.empty, ?_, .refl⟩
    rw [hready.empty]
  rw [hi.first_startOf]
  refine appendMoveTo_rule hh (fun {t l₁ l₂ p x} hw ht ho => ?_) rfl hready.start hstart
    hi.elements_lt
  refine (ho.step hh ht).mono (fun _ _ hv => hv) fun _ v hv => ⟨l₁.length + 1, ?_, hv⟩
  -- a failed move is one of the calls too
  rw [hi.size_eq, hw]
  simp only [List.length_append, List.length_cons]
  omega

/-! ## The rebuild -/

theorem capacity_congr {y : HiveId} (hcont : (u.container y).control = (w.container h).control)
    (hcap : ∀ k, (w.container h).control = some k → (u.control k).capacity = (w.control k).capacity) :
    u.capacity y = w.capacity h := by
  unfold World.capacity
  rw [hcont]
  split
  · next k hk => exact hcap k hk
  · rfl

/-- The hive gets the storage and the limits of the local hive. -/
theorem rebuild_storage (hh : h ≠ .rebuilt) (hi : Inv v) :
    (((swap env v h .rebuilt).releaseStorage .rebuilt).elements h = v.elements .rebuilt) ∧
      (((swap env v h .rebuilt).releaseStorage .rebuilt).container h).limits =
        (v.container .rebuilt).limits ∧
      ((swap env v h .rebuilt).releaseStorage .rebuilt).capacity h = v.capacity .rebuilt := by
  have hs : Exchanged v (swap env v h .rebuilt) h .rebuilt := swap_spec hi hh
  obtain ⟨hr, -⟩ := releaseStorage_spec (h := .rebuilt) hs.inv
  have hcontrol : ((swap env v h .rebuilt).releaseStorage .rebuilt).control =
      (swap env v h .rebuilt).control := releaseStorage_control hs.inv
  have hc : ((swap env v h .rebuilt).container h).control = _ := (swap_container hh h).1
  rw [Equiv.swap_apply_left] at hc
  refine ⟨(hr.elements h hh).trans hs.left, ?_, ?_⟩
  · rw [hr.container h hh]
    exact hs.limits.1
  · refine capacity_congr ?_ fun k _ => ?_
    · rw [hr.container h hh]
      exact hc
    · rw [hcontrol]
      exact (swap_blocks hh).total k

/-- A rebuild that returns keeps the values in order; the hive has the given limits, and the capacity
that was allocated. -/
theorem rebuild_inOrder {limits : Limits} {prepare : HiveM α Unit} {P : ℕ → Prop} (hi : Inv w)
    (hn : NoLocal w) (hh : h ≠ .rebuilt) (hp : Prepares prepare w h limits)
    (hcap : Ends prepare (withLocal w h limits) (fun _ u => P (u.capacity .rebuilt))
      (fun _ _ => True)) :
    Ends (rebuild env h limits prepare) w
      (fun _ w' => (w'.elements h).map Prod.snd = (w.elements h).map Prod.snd ∧
        (w'.container h).limits = limits ∧ P (w'.capacity h)) (fun _ _ => True) := by
  rw [ends_rebuild]
  split
  · refine Ends.mono (Ends.and hp hcap) ?_ fun _ _ _ => trivial
    rintro - u ⟨⟨hu, hroom⟩, hPu⟩
    have hready := hu.ready hi hn hroom
    refine (appendMoveTo_inOrder hh hready).mono ?_ fun _ _ _ => trivial
    rintro - v ⟨ht, ho⟩
    -- the hive takes the storage of the local hive, which releases what the hive had
    have hstorage : ((swap env v h .rebuilt).releaseStorage .rebuilt).elements h = _ ∧ _ :=
      rebuild_storage hh ht.inv
    obtain ⟨hel, hlim, hc⟩ := hstorage
    refine ⟨?_, ?_, ?_⟩
    · rw [hel, ho.values, hready.unchanged.all h]
    · rw [hlim, ho.quiet.owners.limits, hu.limits, withLocal_limits]
    · rw [hc, ho.quiet.capacity]
      exact hPu
  · trivial

/-- The hive `h` has still its control, and that is as it was. -/
structure SameControl (w u : World α) (h : HiveId) : Prop where
  container : (u.container h).control = (w.container h).control
  control : ∀ k, (w.container h).control = some k → u.control k = w.control k

theorem SameControl.trans (hs : SameControl w u h) (hs' : SameControl u v h) : SameControl w v h := by
  refine ⟨hs'.container.trans hs.container, fun k hk => ?_⟩
  rw [hs'.control k (hs.container.trans hk), hs.control k hk]

theorem SameControl.capacity (hs : SameControl w u h) : u.capacity h = w.capacity h :=
  capacity_congr hs.container fun k hk => by rw [hs.control k hk]

theorem Quiet.sameControl {n : ℕ} (hq : Quiet u v .rebuilt n) (hi : Inv u) (hh : h ≠ .rebuilt) :
    SameControl u v h := by
  refine ⟨hq.owners.control h, fun k hk => hq.others k fun hk' => ?_⟩
  -- two hives do not share a control
  obtain ⟨S, hS⟩ := hi h k hk
  obtain ⟨T, hT⟩ := hi .rebuilt k hk'
  exact hh (hT.unique hS)

theorem sameControl_releaseStorage (hi : Inv u) (hh : h ≠ .rebuilt) :
    SameControl u (u.releaseStorage .rebuilt) h := by
  refine ⟨?_, fun k _ => congrFun (releaseStorage_control hi) k⟩
  rw [(releaseStorage_spec (h := .rebuilt) hi).1.container h hh]

/-- A rebuild that throws leaves the storage of the hive as it was. -/
theorem rebuild_failed {limits : Limits} {prepare : HiveM α Unit} (hi : Inv w)
    (hn : NoLocal w) (hh : h ≠ .rebuilt) (hp : Prepares prepare w h limits)
    (hsame : Ends prepare (withLocal w h limits) (fun _ u => SameControl w u h)
      (fun _ u => SameControl w u h)) :
    Ends (rebuild env h limits prepare) w (fun _ _ => True) (fun _ w' => SameControl w w' h) := by
  rw [ends_rebuild]
  split
  · refine Ends.mono (Ends.and hp hsame) ?_ ?_
    · rintro - u ⟨⟨hu, hroom⟩, hsu⟩
      have hready := hu.ready hi hn hroom
      refine (appendMoveTo_inOrder hh hready).mono (fun _ _ _ => trivial) ?_
      rintro e v ⟨hv, -, n, -, hq⟩
      exact (hsu.trans (hq.sameControl hready.inv hh)).trans (sameControl_releaseStorage hv.inv hh)
    · rintro e u ⟨⟨hu, -⟩, hsu⟩
      exact hsu.trans (sameControl_releaseStorage (hu.unchanged_local hi hn).1.touches.inv hh)
  · exact ⟨rfl, fun _ _ => rfl⟩

/-! ## Trimming -/

theorem trimCapacity_storage (hi : Inv w) : (w.trimCapacity h).capacity h ≤ w.capacity h ∧
    ∀ k, ((w.trimCapacity h).container h).control = some k →
      ((w.trimCapacity h).control k).reservedHead = none := by
  unfold World.trimCapacity
  cases hc : (w.container h).control with
  | none => exact ⟨le_refl _, fun k hk => absurd (hc.symm.trans hk) (by simp)⟩
  | some c =>
    obtain ⟨S, hS⟩ := hi h c hc
    have hd : Dropped w (trimWhile c (fun _ => true) w.nextBlock w) h c S := trimWhile_spec _ hS
    have hc' : ((trimWhile c (fun _ => true) w.nextBlock w).container h).control = some c := by
      rw [hd.container]
      exact hc
    simp only
    constructor
    · rw [capacity_eq hc, capacity_eq hc']
      exact trimWhile_capacity _ _
    · intro k hk
      rw [← Option.some.inj (hc'.symm.trans hk)]
      exact trimWhile_all hS hS.represents.lists.reserved_length_le

theorem reservedBlocks_nil
    (hhead : ∀ k, (w.container h).control = some k → (w.control k).reservedHead = none) :
    w.reservedBlocks h = [] := by
  unfold World.reservedBlocks
  split
  · rfl
  · next k hk =>
    rw [hhead k hk]
    cases w.nextBlock <;> rfl

theorem Grew.sameControl {limits : Limits} {capacities : List ℕ} (hh : h ≠ .rebuilt)
    (hg : Grew (withLocal w h limits) u .rebuilt capacities) : SameControl w u h := by
  have hcont : (withLocal w h limits).container h = w.container h := withLocal_container hh
  refine ⟨?_, fun k hk => hg.others h hh k (by rw [hcont]; exact hk)⟩
  rw [hg.same.unchanged.touches.container h hh, hcont]

/-- What `shrink_to_fit` does to the storage. Only a rebuild may leave reserved blocks. -/
theorem shrinkToFit_storage (hi : Inv w) (hn : NoLocal w) (ht : Tight w) (hh : h ≠ .rebuilt) :
    Ends (shrinkToFit env h) w
      (fun _ w' => (w'.elements h).map Prod.snd = (w.elements h).map Prod.snd ∧
        w'.capacity h ≤ w.capacity h ∧
        (w'.reservedBlocks h = [] ∨ shrinkRebuilds env w h = true))
      (fun _ w' => w'.capacity h ≤ w.capacity h ∧ w'.reservedBlocks h = []) := by
  have htrim := (trimCapacity_spec (h := h) hi).unchanged
  have hk := trimCapacity_keepsTight (h := h) hi ht
  have hn' := htrim.noLocal hh hn
  obtain ⟨hle, hhead⟩ := trimCapacity_storage (h := h) hi
  simp only [shrinkToFit, ends_bind, ends_modify, ends_get, shrinkRebuilds]
  generalize w.trimCapacity h = u at htrim hk hn' hle hhead ⊢
  have hsame : (u.elements h).map Prod.snd = (w.elements h).map Prod.snd := by rw [htrim.elements]
  split
  · exact ⟨hsame, hle, .inl (reservedBlocks_nil hhead)⟩
  · cases hp : planCapacity env u h 0 (u.size h) with
    | none => exact ⟨hsame, hle, .inl (reservedBlocks_nil hhead)⟩
    | some plan =>
      simp only
      split
      · exact ⟨hsame, hle, .inl (reservedBlocks_nil hhead)⟩
      · next hlt =>
        have hlt := Nat.lt_of_not_ge hlt
        obtain ⟨hplan, hsize⟩ := planCapacity_spec hp
        rw [Nat.zero_add] at hsize
        have hiu := htrim.touches.inv
        have hmax : plan.blockMax ≤ (u.container h).limits.max := by
          rw [planCapacity_blockMax hp]
          exact allocationBlockMax_limits
        have hprepares : Prepares (reserveBlocks env .rebuilt plan.blockMax plan.blocks plan.added)
            u h (u.container h).limits := PlanOk.prepares hiu hn' hplan hsize
        -- the plan is made for `h`, and the local hive has the same limits
        have hl := PlanOk.local hplan
        have hgrew : Ends (reserveBlocks env .rebuilt plan.blockMax plan.blocks plan.added)
            (withLocal u h (u.container h).limits) _ _ :=
          reserveBlocks_grew (withLocal_inv hiu hn') (withLocal_tight hk.tight) hl.positive hl.room
            (by rw [withLocal_limits]; exact hmax) hl.small hl.lower hl.upper
        have hcap : Ends (reserveBlocks env .rebuilt plan.blockMax plan.blocks plan.added)
            (withLocal u h (u.container h).limits) (fun _ v => v.capacity .rebuilt = plan.added)
            (fun _ _ => True) := by
          refine hgrew.mono (fun _ v hg => ?_) fun _ _ _ => trivial
          rw [hg.capacity, greedyParts_sum hl.room hl.lower hl.upper]
          simp [World.capacity, withLocal, modifyContainer]
        refine ((rebuild_inOrder (P := (· = plan.added)) hiu hn' hh hprepares hcap).and
          (rebuild_failed hiu hn' hh hprepares ?_)).mono ?_ ?_
        · exact hgrew.mono (fun _ _ hg => hg.sameControl hh) fun _ _ hg =>
            hg.1.elim fun _ hk => hk.2.sameControl hh
        · rintro - v ⟨⟨hel, -, hc⟩, -⟩
          refine ⟨hel.trans hsame, ?_, .inr (decide_eq_true hlt)⟩
          rw [hc]
          exact hlt.le.trans hle
        · rintro e v ⟨-, hs⟩
          refine ⟨?_, reservedBlocks_nil fun k hk => ?_⟩
          · rw [hs.capacity]
            exact hle
          · rw [hs.container] at hk
            rw [hs.control k hk]
            exact hhead k hk

/-- `reshape` keeps the values in order, and gives the hive its new limits. -/
theorem reshape_inOrder {limits : Limits} (hi : Inv w) (hn : NoLocal w) (hh : h ≠ .rebuilt) :
    Ends (reshape env h limits) w
      (fun _ w' => (w'.elements h).map Prod.snd = (w.elements h).map Prod.snd ∧
        (w'.container h).limits = limits) (fun _ _ => True) := by
  unfold reshape validateLimits
  simp only [ends_bind]
  split
  · simp only [ends_pure, ends_get]
    cases hc : (w.container h).control with
    | none =>
      simp only [ends_modify]
      have hu : Unchanged w (w.modifyContainer h ({ · with limits := limits })) h :=
        modifyContainer_unchanged hi rfl
      refine ⟨by rw [hu.elements], ?_⟩
      simp [modifyContainer]
    | some c =>
      simp only
      split
      · refine (rebuild_inOrder (P := fun _ => True) hi hn hh (reserve_spec (withLocal_inv hi hn) _)
          ?_).mono (fun _ _ hv => ⟨hv.1, hv.2.1⟩) fun _ _ _ => trivial
        exact (reserve_spec (withLocal_inv hi hn) _).mono (fun _ _ _ => trivial) fun _ _ _ => trivial
      · obtain ⟨S, hS⟩ := hi h c hc
        have hdropped : Dropped w (dropReserved c limits w.nextBlock none w) h c S :=
          dropReserved_spec limits hS (show S.reserved = [] ++ S.reserved from rfl)
        have hdrop := hdropped.sameContents hi hc hS
        simp only [ends_modify]
        have hu : Unchanged (dropReserved c limits w.nextBlock none w)
            ((dropReserved c limits w.nextBlock none w).modifyContainer h
              ({ · with limits := limits })) h :=
          modifyContainer_unchanged hdrop.unchanged.touches.inv rfl
        refine ⟨by rw [hu.elements, hdrop.unchanged.elements], ?_⟩
        simp [modifyContainer]
  · simp only [ends_throw]

end CCForge.Hive
