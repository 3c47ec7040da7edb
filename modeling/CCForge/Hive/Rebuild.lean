import CCForge.Hive.Exchange

/-!
# Rebuilding a hive

`reshape` and `shrink_to_fit` move all elements to a local hive and swap with it. The
blocks of the local hive are allocated before the first element moves, but an element
may still throw. Then the elements before it have been moved from, and all of them
stay at their positions. `assign` clears a hive and fills it again.
-/

namespace CCForge.Hive

open World Effect

namespace Block

variable {α : Type} {k : Block α} {fl : List ℕ} {i : ℕ} {v x : α}

/-- Another value at a live slot. -/
theorem Ok.assign (h : k.Ok fl) (hi : i ∈ k.live) : (k.setSlot i (.element x)).Ok fl := by
  have hfree : (k.setSlot i (.element x)).FreeList fl := by
    refine h.free.congr rfl fun j hj => Function.update_of_ne ?_ _ _
    rintro rfl
    exact h.live_notMem hi hj
  refine ⟨h.bounded, h.small, h.last, h.lengths, hfree, h.runs, h.count, fun j hj hs => ?_⟩
  by_cases hji : j = i
  · subst hji
    exact ⟨x, Function.update_self _ _ _⟩
  · obtain ⟨u, hu⟩ := h.elements j hj hs
    exact ⟨u, (Function.update_of_ne hji _ _).trans hu⟩

theorem elements_assign (hi : i ∈ k.live) (hv : k.slots i = .element v) :
    ∃ l₁ l₂, k.elements = l₁ ++ (i, v) :: l₂ ∧
      (k.setSlot i (.element x)).elements = l₁ ++ (i, x) :: l₂ := by
  obtain ⟨m₁, m₂, hm⟩ := List.append_of_mem hi
  have hn := live_nodup (b := k)
  rw [hm, List.nodup_middle, List.nodup_cons] at hn
  have hlive : (k.setSlot i (.element x)).live = m₁ ++ i :: m₂ := hm
  have hother : ∀ j ∈ m₁ ++ m₂, (k.setSlot i (.element x)).slots j = k.slots j := fun j hj =>
    Function.update_of_ne (fun he : j = i => hn.1 (he ▸ hj)) _ _
  have hself : (k.setSlot i (.element x)).slots i = .element x := Function.update_self _ _ _
  refine ⟨m₁.filterMap k.elementAt, m₂.filterMap k.elementAt, ?_, ?_⟩
  · rw [Block.elements, hm, List.filterMap_append, List.filterMap_cons_some (elementAt_eq hv)]
  · rw [Block.elements, hlive, List.filterMap_append, List.filterMap_cons_some (elementAt_eq hself),
      elements_congr fun j hj => hother j (List.mem_append_left m₂ hj),
      elements_congr fun j hj => hother j (List.mem_append_right m₁ hj)]

end Block

variable {α : Type} {env : Env α} {w w' : World α} {h : HiveId}

/-- A position of the hive, found in its representation. -/
theorem World.Inv.locate (hi : Inv w) {p : Handle} {v : α} (hp : (p, v) ∈ w.elements h) :
    ∃ c S, (w.container h).control = some c ∧ HiveOk w h c S ∧ p.1 ∈ S.active ∧
      p.2 ∈ (w.block p.1).live ∧ (w.block p.1).slots p.2 = .element v := by
  cases hc : (w.container h).control with
  | none =>
    rw [elements_of_none hc] at hp
    exact absurd hp List.not_mem_nil
  | some c =>
    obtain ⟨S, hS⟩ := hi h c hc
    rw [hS.elements hc, elementsOf, List.mem_flatMap] at hp
    obtain ⟨b, hb, hm⟩ := hp
    obtain ⟨⟨i, u⟩, he, heq⟩ := List.mem_map.mp hm
    cases heq
    rw [Block.elements, List.mem_filterMap] at he
    obtain ⟨j, hj, hju⟩ := he
    unfold Block.elementAt at hju
    split at hju
    · next hs =>
      cases hju
      exact ⟨c, S, rfl, hS, hb, hj, hs⟩
    · exact absurd hju (by simp)

theorem elementsOf_assigned {l : List BlockId} {b : BlockId} {i : ℕ} {v x : α} (hn : l.Nodup)
    (hb : b ∈ l) (hi : i ∈ (w.block b).live) (hv : (w.block b).slots i = .element v) :
    ∃ l₁ l₂, w.elementsOf l = l₁ ++ ((b, i), v) :: l₂ ∧
      (w.modifyBlock b (·.setSlot i (.element x))).elementsOf l = l₁ ++ ((b, i), x) :: l₂ := by
  have hs : ∀ y, y ≠ b → (w.modifyBlock b (·.setSlot i (.element x))).block y = w.block y :=
    fun y hy => modifyBlock_other _ hy
  obtain ⟨e₁, e₂, he, he'⟩ := Block.elements_assign (x := x) hi hv
  refine elementsOf_changed (x := [(i, v)]) (y := [(i, x)]) hn hb hs he ?_
  rw [modifyBlock_self]
  exact he'

/-- A write through an iterator changes one value. -/
theorem assignAt_spec (hi : Inv w) {l₁ l₂ : List (Handle × α)} {p : Handle} {v : α} (x : α)
    (he : w.elements h = l₁ ++ (p, v) :: l₂) :
    OnlyTouches w (w.assignAt (iteratorAt p) x) h ∧
      (w.assignAt (iteratorAt p) x).elements h = l₁ ++ (p, x) :: l₂ ∧
      (w.assignAt (iteratorAt p) x).container = w.container := by
  obtain ⟨b, i⟩ := p
  obtain ⟨c, S, hc, hS, hb, hlive, hv⟩ := hi.locate (p := (b, i)) (v := v) (by rw [he]; simp)
  have hr := hS.represents
  have hassign : w.assignAt (iteratorAt (b, i)) x = w.modifyBlock b (·.setSlot i (.element x)) := rfl
  rw [hassign]
  have hbS : b ∈ S.blocks := Shape.mem_blocks.mpr (.inl hb)
  have hk : Keeps w (w.modifyBlock b (·.setSlot i (.element x))) h c :=
    keeps_modifyBlock (hr.lists.mem_owned hbS) _
  have hr' : Represents (w.modifyBlock b (·.setSlot i (.element x))) c S := by
    obtain ⟨⟨fl, hok⟩, hlc⟩ := hr.filled.active b hb
    refine hr.change hb (hr.lists.of_same
      ⟨rfl, rfl, rfl, rfl, rfl, rfl, rfl, rfl, rfl, rfl, rfl, rfl, rfl, rfl⟩) rfl rfl rfl
      (fun y hy => modifyBlock_other _ hy) ⟨fl, ?_⟩ ?_ ?_ (fun _ _ => Iff.rfl) ?_ ?_ rfl
    · rw [modifyBlock_self]
      exact hok.assign hlive
    · rw [modifyBlock_self]
      exact hlc
    · rw [modifyBlock_self]
      rfl
    · rw [modifyBlock_self]
      exact hr.filled.available b hb
    · rw [modifyBlock_self]
      rfl
  obtain ⟨ht, hel⟩ := hi.of_keeps hc hk (hS.of_keeps hk hr' hS.settled)
  obtain ⟨m₁, m₂, hm, hm'⟩ := elementsOf_assigned (x := x) hr.lists.active_nodup hb hlive hv
  have hnodup : ((l₁ ++ ((b, i), v) :: l₂).map Prod.fst).Nodup := by
    rw [← he, hi.elements_fst]
    exact hi.positions_nodup h
  rw [hS.elements hc, hm] at he
  obtain ⟨rfl, -, rfl⟩ := split_unique hnodup he.symm
  exact ⟨ht, hel.trans hm', rfl⟩

theorem World.Inv.value_eq (hi : Inv w) {p : Handle} {v : α} (hp : (p, v) ∈ w.elements h) :
    w.value (iteratorAt p) = some v := by
  obtain ⟨c, S, -, -, -, -, hv⟩ := hi.locate hp
  simp [World.value, iteratorAt, Iterator.at, hv]

/-! ## Filling -/

/-- The hive has got the values as new elements, and all others are where they were. -/
structure Appended (w w' : World α) (h : HiveId) (values : List α) : Prop where
  touches : OnlyTouches w w' h
  kept : (w.elements h).Sublist (w'.elements h)
  values : ((w'.elements h).map Prod.snd).Perm (values ++ (w.elements h).map Prod.snd)

theorem Emplaced.appended {v : α} {it : Iterator} (he : Emplaced w w' h v it) :
    Appended w w' h [v] := by
  obtain ⟨p, l₁, l₂, -, hold, hnew⟩ := he.added
  refine ⟨he.touches, ?_, ?_⟩
  · rw [hold, hnew]
    exact (List.Sublist.refl l₁).append (List.sublist_cons_self _ _)
  · rw [hold, hnew]
    simp only [List.map_append, List.map_cons, List.singleton_append]
    exact List.perm_middle

theorem Unchanged.appended (hu : Unchanged w w' h) : Appended w w' h [] := by
  refine ⟨hu.touches, ?_, ?_⟩
  · rw [hu.elements]
  · rw [hu.elements, List.nil_append]

theorem Appended.trans {u : World α} {l₁ l₂ : List α} (ha : Appended w w' h l₁)
    (ha' : Appended w' u h l₂) : Appended w u h (l₁ ++ l₂) := by
  refine ⟨ha.touches.trans ha'.touches, ha.kept.trans ha'.kept, ha'.values.trans ?_⟩
  refine (ha.values.append_left l₂).trans ?_
  rw [← List.append_assoc]
  exact List.perm_append_comm.append_right _

theorem appendInput_spec {values : List α} (hi : Inv w) :
    Ends (appendInput env h values) w (fun _ w' => Appended w w' h values)
      (fun _ w' => ∃ l, l <+: values ∧ Appended w w' h l) := by
  induction values generalizing w with
  | nil =>
    simp only [appendInput, ends_pure]
    exact (Silent.unchanged .refl hi).appended
  | cons v values ih =>
    simp only [appendInput, ends_bind]
    refine (emplace_spec hi).mono (fun it u he => ?_) fun e u hu => ?_
    · refine (ih he.touches.inv).mono (fun _ _ ha => he.appended.trans ha) fun e u' ha => ?_
      obtain ⟨l, hl, ha⟩ := ha
      exact ⟨v :: l, by simpa using hl, he.appended.trans ha⟩
    · exact ⟨[], List.nil_prefix, hu.appended⟩

/-- The hive has new contents. -/
structure Refilled (w w' : World α) (h : HiveId) (values : List α) : Prop where
  touches : OnlyTouches w w' h
  values : ((w'.elements h).map Prod.snd).Perm values

theorem assign_spec {values : List α} (hi : Inv w) :
    Ends (assign env h values) w (fun _ w' => Refilled w w' h values)
      (fun _ w' => ∃ l, l <+: values ∧ Refilled w w' h l) := by
  obtain ⟨ht, he, -⟩ := clearWithoutEndInvalidation_spec (h := h) hi
  have hrefill : ∀ {l : List α} {u : World α} (epoch : ℕ),
      Appended (w.clearWithoutEndInvalidation h) u h l →
      Refilled w (u.modifyContainer h ({ · with endEpoch := epoch })) h l := by
    intro l u epoch ha
    have hu : Unchanged u (u.modifyContainer h ({ · with endEpoch := epoch })) h :=
      modifyContainer_unchanged ha.touches.inv rfl
    refine ⟨(ht.trans ha.touches).trans hu.touches, ?_⟩
    rw [hu.elements]
    simpa [he] using ha.values
  simp only [assign, ends_bind, ends_get, ends_modify, ends_tryCatch, ends_throw]
  refine (appendInput_spec ht.inv).mono (fun _ u ha => hrefill _ ha) fun e u ha => ?_
  obtain ⟨l, hl, ha⟩ := ha
  exact ⟨l, hl, hrefill _ ha⟩

/-! ## Room for more elements -/

theorem World.Inv.room (hi : Inv w) {c : ControlId} (hc : (w.container h).control = some c)
    (hlt : w.size h < w.capacity h) :
    (w.control c).availableHead ≠ none ∨ (w.control c).reservedHead ≠ none := by
  obtain ⟨S, hS⟩ := hi h c hc
  have hr := hS.represents
  by_contra hnone
  simp only [not_or, not_not] at hnone
  have hav := hr.lists.available_nil hnone.1
  have hres := hr.lists.reserved_nil hnone.2
  have hfull : w.totalSize S.active = w.totalCapacity S.active := by
    unfold totalSize totalCapacity
    rw [List.map_congr_left fun b hb => ?_]
    obtain ⟨⟨fl, hok⟩, -⟩ := hr.filled.active b hb
    rw [hok.count]
    refine hok.full fun hm => ?_
    have hmem := (hr.filled.available b hb).mpr hm
    rw [hav] at hmem
    exact absurd hmem List.not_mem_nil
  have hsize := hr.size
  have hcap := hr.capacity
  simp only [Shape.blocks, hres, hS.settled, List.append_nil] at hcap
  simp only [World.size, World.capacity, hc] at hlt
  omega

theorem capacity_eq {c : ControlId} (hc : (w.container h).control = some c) :
    w.capacity h = (w.control c).capacity := by
  simp [World.capacity, hc]

theorem commitAvailable_capacity {c : ControlId} {b : BlockId} {v : α} :
    ((commitAvailable w h c b v).control c).capacity = (w.control c).capacity := by
  unfold commitAvailable
  simp only
  split
  · simp [touchEnd, modifyContainer, availableRemove_control, modifyBlock]
  · simp [touchEnd, modifyContainer, modifyBlock]

theorem activate_capacity {c : ControlId} {b : BlockId} {v : α} :
    ((activate w h c b v).control c).capacity = (w.control c).capacity := by
  unfold activate
  simp only
  split
  · simp [touchEnd, modifyContainer, availableAdd, activeAppend, modifyBlock]
  · simp [touchEnd, modifyContainer, activeAppend, modifyBlock]

/-- With room left, only the element itself can throw. -/
theorem emplace_room {v : α} (hi : Inv w) (hlt : w.size h < w.capacity h) :
    Ends (emplace env h v) w (fun _ w' => w'.capacity h = w.capacity h) (fun e _ => e = .element) := by
  simp only [emplace, ends_bind, ends_get]
  cases hc : (w.container h).control with
  | none => simp [World.capacity, hc] at hlt
  | some c =>
    obtain ⟨S, hS⟩ := hi h c hc
    have hr := hS.represents
    have hroom := hi.room hc hlt
    have hcap := capacity_eq hc
    simp only
    cases hav : (w.control c).availableHead with
    | some b =>
      have hmem := hr.lists.available_mem hav
      simp only [emplaceAvailable, ends_bind, ends_get, ends_tryCatch, ends_mayThrow, ends_modify,
        ends_throw, ends_pure]
      split
      · trivial
      · have hS' : HiveOk (tick w) h c S := hS.of_local silent_tick.loc fun he => he
        obtain ⟨-, hk, -⟩ := commitAvailable_spec (h := h) (v := v) hS'.represents hS.settled hmem
        rw [capacity_eq ((hk.control h).trans hc), commitAvailable_capacity, hcap]
        rfl
    | none =>
      cases hres : (w.control c).reservedHead with
      | none => simp [hav, hres] at hroom
      | some b =>
        obtain ⟨rest, hrest⟩ := hr.lists.reserved_cons hres
        simp only [emplaceReserved, ends_bind, ends_tryCatch, ends_mayThrow, ends_modify, ends_throw,
          ends_pure]
        split
        · trivial
        · have hS' : HiveOk (tick w) h c S := hS.of_local silent_tick.loc fun he => he
          obtain ⟨hr₁, hk₁⟩ := takeReserved_spec (h := h) hS'.represents hS.settled hrest
          obtain ⟨-, hk, -⟩ := activate_spec (h := h) (v := v) hr₁ rfl
            (hr.filled.reserved b (by simp [hrest]))
          rw [capacity_eq ((hk.control h).trans ((hk₁.control h).trans hc)), activate_capacity, hcap]
          simp [takeReserved, tick]

/-! ## Moving the elements -/

/-- The elements `l₁` of `h` have moved to the local hive, and `l₂` are still to move. -/
structure Transfer (env : Env α) (w u : World α) (h : HiveId) (l₁ l₂ : List (Handle × α)) : Prop where
  inv : Inv u
  source : u.elements h = l₁.map (fun e => (e.1, env.moved e.2)) ++ l₂
  target : ((u.elements .rebuilt).map Prod.snd).Perm (l₁.map Prod.snd)
  room : l₁.length + l₂.length ≤ u.capacity .rebuilt
  container : ∀ x, x ≠ .rebuilt → u.container x = w.container x
  elements : ∀ x, x ≠ h → x ≠ .rebuilt → u.elements x = w.elements x

/-- What the moves leave behind when the constructor of an element throws: the elements
before it have been moved from, and it has been as far as its constructor came. -/
def Partly (env : Env α) (l l' : List (Handle × α)) : Prop :=
  ∃ l₁ p v l₂, l = l₁ ++ (p, v) :: l₂ ∧
    l' = l₁.map (fun e => (e.1, env.moved e.2)) ++ (p, env.partlyMoved v) :: l₂

/-- The elements after a rebuild that threw `e`. -/
def AfterError (env : Env α) (e : Error) (l l' : List (Handle × α)) : Prop :=
  if e = .element then Partly env l l' else l' = l

theorem AfterError.handles {e : Error} {l l' : List (Handle × α)} (hp : AfterError env e l l') :
    l'.map Prod.fst = l.map Prod.fst := by
  unfold AfterError at hp
  split at hp
  · obtain ⟨l₁, p, v, l₂, rfl, rfl⟩ := hp
    simp
  · rw [hp]

/-- The rebuild of `h` has been given up. -/
structure Interrupted (env : Env α) (e : Error) (w u : World α) (h : HiveId) : Prop where
  inv : Inv u
  source : AfterError env e (w.elements h) (u.elements h)
  container : ∀ x, x ≠ .rebuilt → u.container x = w.container x
  elements : ∀ x, x ≠ h → x ≠ .rebuilt → u.elements x = w.elements x

theorem same_last : World.same (w.last h) (w.last h) = true := by
  simp [World.same, World.last]

theorem same_iteratorAt (p : Handle) : World.same (iteratorAt p) (w.last h) = false := by
  simp [World.same, World.last, iteratorAt, Iterator.at]

/-- The next element moves. -/
theorem Transfer.step {u v : World α} {l₁ l₂ : List (Handle × α)} {p : Handle} {x : α}
    {it : Iterator} (hh : h ≠ .rebuilt) (ht : Transfer env w u h l₁ ((p, x) :: l₂))
    (he : Emplaced u v .rebuilt x it) (hcap : v.capacity .rebuilt = u.capacity .rebuilt) :
    Transfer env w (v.assignAt (iteratorAt p) (env.moved x)) h (l₁ ++ [(p, x)]) l₂ ∧
      (v.assignAt (iteratorAt p) (env.moved x)).next (iteratorAt p) =
        (v.assignAt (iteratorAt p) (env.moved x)).startOf h l₂ := by
  have hsrc : v.elements h = l₁.map (fun e => (e.1, env.moved e.2)) ++ (p, x) :: l₂ := by
    rw [he.touches.elements h hh, ht.source]
  obtain ⟨ht', hel, hcont⟩ := assignAt_spec he.touches.inv (env.moved x) hsrc
  refine ⟨⟨ht'.inv, ?_, ?_, ?_, fun y hy => ?_, fun y hy hy' => ?_⟩, ht'.inv.next_eq hel⟩
  · rw [hel]
    simp
  · rw [ht'.elements .rebuilt (Ne.symm hh)]
    refine he.appended.values.trans ?_
    rw [List.map_append]
    exact (ht.target.append_left [x]).trans List.perm_append_comm
  · have hroom := ht.room
    have hsame : (v.assignAt (iteratorAt p) (env.moved x)).capacity .rebuilt = v.capacity .rebuilt := rfl
    rw [hsame, hcap]
    simp only [List.length_append, List.length_cons, List.length_nil] at hroom ⊢
    omega
  · rw [hcont, he.touches.container y hy, ht.container y hy]
  · rw [ht'.elements y hy, he.touches.elements y hy', ht.elements y hy hy']

/-- The next element has thrown. -/
theorem Transfer.interrupt {u v : World α} {l₁ l₂ : List (Handle × α)} {p : Handle} {x : α}
    (hw : w.elements h = l₁ ++ (p, x) :: l₂) (ht : Transfer env w u h l₁ ((p, x) :: l₂))
    (hu : Unchanged u v .rebuilt) :
    Interrupted env .element w (v.assignAt (iteratorAt p) (env.partlyMoved x)) h := by
  have hsrc : v.elements h = l₁.map (fun e => (e.1, env.moved e.2)) ++ (p, x) :: l₂ := by
    rw [hu.all h, ht.source]
  obtain ⟨ht', hel, hcont⟩ := assignAt_spec hu.touches.inv (env.partlyMoved x) hsrc
  refine ⟨ht'.inv, ?_, fun y hy => ?_, fun y hy hy' => ?_⟩
  · rw [AfterError, if_pos rfl]
    exact ⟨l₁, p, x, l₂, hw, hel⟩
  · rw [hcont, hu.touches.container y hy, ht.container y hy]
  · rw [ht'.elements y hy, hu.all y, ht.elements y hy hy']

/-- There is room for the next element. -/
theorem Transfer.size_lt {u : World α} {l₁ l₂ : List (Handle × α)} {e : Handle × α}
    (ht : Transfer env w u h l₁ (e :: l₂)) : u.size .rebuilt < u.capacity .rebuilt := by
  have hlen := ht.target.length_eq
  have hroom := ht.room
  simp only [List.length_map, List.length_cons] at hlen hroom
  rw [ht.inv.size_eq]
  omega

/-- A rule for the moves of a rebuild: `J` holds of the elements that have moved, and `K` after a
constructor has thrown. -/
theorem appendMoveTo_rule {J : World α → List (Handle × α) → Prop} {K : World α → Prop}
    {l₂ : List (Handle × α)} (hh : h ≠ .rebuilt)
    (hstep : ∀ {u : World α} {l₁ l₂ : List (Handle × α)} {p : Handle} {x : α},
      w.elements h = l₁ ++ (p, x) :: l₂ → Transfer env w u h l₁ ((p, x) :: l₂) → J u l₁ →
      Ends (emplace env .rebuilt x) u
        (fun _ v => J (v.assignAt (iteratorAt p) (env.moved x)) (l₁ ++ [(p, x)]))
        (fun _ v => K (v.assignAt (iteratorAt p) (env.partlyMoved x)))) :
    ∀ {u : World α} {l₁ : List (Handle × α)} {fuel : ℕ}, w.elements h = l₁ ++ l₂ →
      Transfer env w u h l₁ l₂ → J u l₁ → l₂.length < fuel →
      Ends (appendMoveTo env .rebuilt (w.last h) fuel (u.startOf h l₂)) u
        (fun _ u' => Transfer env w u' h (w.elements h) [] ∧ J u' (w.elements h))
        (fun e u' => Interrupted env e w u' h ∧ e = .element ∧ K u') := by
  induction l₂ with
  | nil =>
    intro u l₁ fuel hw ht hJ hf
    rw [List.append_nil] at hw
    have hlast : u.startOf h [] = w.last h := by
      simp [startOf, World.last, ht.container h hh]
    cases fuel with
    | zero => simp at hf
    | succ n =>
      rw [hlast, appendMoveTo, if_pos same_last]
      simp only [ends_pure]
      rw [hw]
      exact ⟨ht, hJ⟩
  | cons e l₂ ih =>
    obtain ⟨p, x⟩ := e
    intro u l₁ fuel hw ht hJ hf
    cases fuel with
    | zero => simp at hf
    | succ n =>
      have hvalue : u.value (iteratorAt p) = some x := ht.inv.value_eq (h := h) (by
        rw [ht.source]
        simp)
      rw [show u.startOf h ((p, x) :: l₂) = iteratorAt p from rfl, appendMoveTo,
        if_neg (by simp [same_iteratorAt])]
      simp only [ends_bind, ends_get, hvalue, ends_tryCatch, ends_modify, ends_throw]
      refine (((emplace_spec ht.inv).and (emplace_room ht.inv ht.size_lt)).and
        (hstep hw ht hJ)).mono ?_ ?_
      · rintro it v ⟨⟨he, hcap⟩, hJ'⟩
        obtain ⟨ht', hnext⟩ := ht.step hh he hcap
        rw [hnext]
        exact ih (by rw [hw]; simp) ht' hJ' (by simpa using hf)
      · rintro e v ⟨⟨hu, rfl⟩, hK⟩
        rw [if_pos rfl]
        exact ⟨ht.interrupt hw hu, rfl, hK⟩

theorem appendMoveTo_spec {l₁ l₂ : List (Handle × α)} {u : World α} {fuel : ℕ} (hh : h ≠ .rebuilt)
    (hw : w.elements h = l₁ ++ l₂) (ht : Transfer env w u h l₁ l₂) (hf : l₂.length < fuel) :
    Ends (appendMoveTo env .rebuilt (w.last h) fuel (u.startOf h l₂)) u
      (fun _ u' => Transfer env w u' h (w.elements h) [])
      (fun e u' => Interrupted env e w u' h) := by
  refine (appendMoveTo_rule (J := fun _ _ => True) (K := fun _ => True) hh (fun _ ht _ => ?_) hw ht
    trivial hf).mono (fun _ _ hu => hu.1) fun _ _ hu => hu.1
  exact (emplace_spec ht.inv).mono (fun _ _ _ => trivial) fun _ _ _ => trivial

/-! ## Rebuilding -/

theorem World.Inv.first_startOf (hi : Inv w) : w.first h = w.startOf h (w.elements h) := by
  have hfirst := hi.first_eq h
  rw [iterators, ← hi.elements_fst h] at hfirst
  cases he : w.elements h with
  | nil =>
    rw [he] at hfirst
    simpa [startOf] using hfirst.symm
  | cons e l =>
    rw [he] at hfirst
    simpa [startOf] using hfirst.symm

/-- All elements of `h` are in new blocks. -/
structure Rebuilt (w w' : World α) (h : HiveId) : Prop where
  inv : Inv w'
  values : ((w'.elements h).map Prod.snd).Perm ((w.elements h).map Prod.snd)
  container : ∀ x, x ≠ h → x ≠ .rebuilt → w'.container x = w.container x
  elements : ∀ x, x ≠ h → x ≠ .rebuilt → w'.elements x = w.elements x

/-- The local hive of a rebuild does not exist outside of it. -/
def NoLocal (w : World α) : Prop := (w.container .rebuilt).control = none

theorem Transfer.finish {u : World α} (hh : h ≠ .rebuilt) (ht : Transfer env w u h (w.elements h) []) :
    Rebuilt w ((swap env u h .rebuilt).releaseStorage .rebuilt) h ∧
      NoLocal ((swap env u h .rebuilt).releaseStorage .rebuilt) := by
  have hs : Exchanged u (swap env u h .rebuilt) h .rebuilt := swap_spec ht.inv hh
  obtain ⟨hr, hnone⟩ := releaseStorage_spec (h := .rebuilt) hs.inv
  refine ⟨⟨hr.inv, ?_, fun x hx hx' => ?_, fun x hx hx' => ?_⟩, hnone⟩
  · rw [hr.elements h hh, hs.left]
    exact ht.target
  · rw [hr.container x hx', hs.container x hx hx', ht.container x hx']
  · rw [hr.elements x hx', hs.elements x hx hx', ht.elements x hx hx']

variable {e : Error}

theorem Interrupted.finish {u : World α} (hh : h ≠ .rebuilt) (ht : Interrupted env e w u h) :
    Interrupted env e w (u.releaseStorage .rebuilt) h ∧ NoLocal (u.releaseStorage .rebuilt) := by
  obtain ⟨hr, hnone⟩ := releaseStorage_spec (h := .rebuilt) ht.inv
  refine ⟨⟨hr.inv, ?_, fun x hx => ?_, fun x hx hx' => ?_⟩, hnone⟩
  · rw [hr.elements h hh]
    exact ht.source
  · rw [hr.container x hx, ht.container x hx]
  · rw [hr.elements x hx', ht.elements x hx hx']

theorem Unchanged.interrupted {u : World α} (hu : Unchanged w u .rebuilt) (he : e ≠ .element) :
    Interrupted env e w u h := by
  refine ⟨hu.touches.inv, ?_, hu.touches.container, fun x _ _ => hu.all x⟩
  rw [AfterError, if_neg he]
  exact hu.all h

theorem Interrupted.of_unchanged {u : World α} (hu : Unchanged w w' .rebuilt)
    (ht : Interrupted env e w' u h) : Interrupted env e w u h := by
  refine ⟨ht.inv, ?_, fun x hx => ?_, fun x hx hx' => ?_⟩
  · rw [← hu.all h]
    exact ht.source
  · rw [ht.container x hx, hu.touches.container x hx]
  · rw [ht.elements x hx hx', hu.all x]

theorem Rebuilt.of_unchanged {u : World α} (hu : Unchanged w w' .rebuilt) (ht : Rebuilt w' u h) :
    Rebuilt w u h := by
  refine ⟨ht.inv, ?_, fun x hx hx' => ?_, fun x hx hx' => ?_⟩
  · rw [← hu.all h]
    exact ht.values
  · rw [ht.container x hx hx', hu.touches.container x hx']
  · rw [ht.elements x hx hx', hu.all x]

/-- The store in which the local hive has been constructed. -/
def withLocal (w : World α) (h : HiveId) (limits : Limits) : World α :=
  w.modifyContainer .rebuilt fun _ => { alloc := (w.container h).alloc, limits := limits }

/-- `prepare` allocates room for all elements of `h` in the local hive. -/
def Prepares (prepare : HiveM α Unit) (w : World α) (h : HiveId) (limits : Limits) : Prop :=
  Ends prepare (withLocal w h limits)
    (fun _ u => SameContents (withLocal w h limits) u .rebuilt ∧ w.size h ≤ u.capacity .rebuilt)
    (fun e u => SameContents (withLocal w h limits) u .rebuilt ∧ e ≠ .element)

/-- The life of the local hive, step by step. -/
theorem ends_rebuild {limits : Limits} {prepare : HiveM α Unit} {Q : Unit → World α → Prop}
    {E : Error → World α → Prop} : Ends (rebuild env h limits prepare) w Q E ↔
      if isWithinHardLimits env limits then
        Ends prepare (withLocal w h limits)
          (fun _ u => Ends (appendMoveTo env .rebuilt (u.last h) (u.size h + 1) (u.first h)) u
            (fun _ v => Q () ((swap env v h .rebuilt).releaseStorage .rebuilt))
            (fun e v => E e (v.releaseStorage .rebuilt)))
          (fun e u => E e (u.releaseStorage .rebuilt))
      else E (.lengthError "std::hive: invalid block capacity limits") w := by
  unfold rebuild validateLimits
  simp only [ends_bind]
  split
  · simp only [ends_pure, ends_get, ends_modify, ends_bind, ends_tryCatch, ends_throw]
    exact Iff.rfl
  · simp only [ends_throw]

/-- All blocks of the local hive have been allocated. -/
theorem SameContents.unchanged_local {limits : Limits} {u : World α} (hi : Inv w) (hn : NoLocal w)
    (hu : SameContents (withLocal w h limits) u .rebuilt) :
    Unchanged w u .rebuilt ∧ u.elements .rebuilt = [] := by
  have hlocal : Unchanged w (withLocal w h limits) .rebuilt := modifyContainer_unchanged hi hn.symm
  have hall : Unchanged w u .rebuilt :=
    ⟨hlocal.touches.trans hu.unchanged.touches, (hu.unchanged.all _).trans hlocal.elements⟩
  exact ⟨hall, hall.elements.trans (elements_of_none hn)⟩

/-- All elements of `h` are to move to the local hive, which has room for them. -/
structure Ready (w u : World α) (h : HiveId) : Prop where
  unchanged : Unchanged w u .rebuilt
  empty : u.elements .rebuilt = []
  size : u.size h = w.size h
  room : u.size h ≤ u.capacity .rebuilt

theorem SameContents.ready {limits : Limits} {u : World α} (hi : Inv w) (hn : NoLocal w)
    (hu : SameContents (withLocal w h limits) u .rebuilt) (hroom : w.size h ≤ u.capacity .rebuilt) :
    Ready w u h := by
  obtain ⟨hu₁, hempty⟩ := hu.unchanged_local hi hn
  have hsize : u.size h = w.size h := by rw [hu₁.touches.inv.size_eq, hu₁.all h, ← hi.size_eq]
  exact ⟨hu₁, hempty, hsize, hsize.trans_le hroom⟩

theorem Ready.inv {u : World α} (hr : Ready w u h) : Inv u := hr.unchanged.touches.inv

/-- The moves begin. -/
theorem Ready.start {u : World α} (hr : Ready w u h) : Transfer env u u h [] (u.elements h) := by
  have hroom := hr.room
  rw [hr.inv.size_eq] at hroom
  refine ⟨hr.inv, rfl, ?_, ?_, fun _ _ => rfl, fun _ _ _ => rfl⟩
  · rw [hr.empty]
  · simpa using hroom

theorem World.Inv.elements_lt (hi : Inv w) : (w.elements h).length < w.size h + 1 := by
  rw [hi.size_eq]
  exact Nat.lt_succ_self _

theorem rebuild_spec {limits : Limits} {prepare : HiveM α Unit} (hi : Inv w) (hn : NoLocal w)
    (hh : h ≠ .rebuilt) (hp : Prepares prepare w h limits) :
    Ends (rebuild env h limits prepare) w (fun _ w' => Rebuilt w w' h ∧ NoLocal w')
      (fun e w' => Interrupted env e w w' h ∧ NoLocal w') := by
  rw [ends_rebuild]
  split
  · refine Ends.mono hp ?_ ?_
    · rintro - u ⟨hu, hroom⟩
      have hready := hu.ready hi hn hroom
      rw [hready.inv.first_startOf]
      refine (appendMoveTo_spec hh rfl hready.start hready.inv.elements_lt).mono
        (fun _ v hv => ?_) fun e v hv => ?_
      · obtain ⟨hr, hnone⟩ := hv.finish hh
        exact ⟨hr.of_unchanged hready.unchanged, hnone⟩
      · obtain ⟨hr, hnone⟩ := hv.finish hh
        exact ⟨hr.of_unchanged hready.unchanged, hnone⟩
    · rintro e u ⟨hu, he⟩
      exact ((hu.unchanged_local hi hn).1.interrupted he).finish hh
  · exact ⟨(Silent.unchanged .refl hi).interrupted (by simp), hn⟩

/-- Both sequences have the same values. -/
def SameValues (l l' : List (Handle × α)) : Prop := (l'.map Prod.snd).Perm (l.map Prod.snd)

/-- What `shrink_to_fit` and `reshape` do to a hive: its elements before and after are
related by `R`, and they stay where they are if there is no rebuild. -/
structure Reworked (w w' : World α) (h : HiveId) (rebuilds : Bool)
    (R : List (Handle × α) → List (Handle × α) → Prop) : Prop where
  inv : Inv w'
  noLocal : NoLocal w'
  source : R (w.elements h) (w'.elements h)
  container : ∀ x, x ≠ h → x ≠ .rebuilt → w'.container x = w.container x
  elements : ∀ x, x ≠ h → x ≠ .rebuilt → w'.elements x = w.elements x
  kept : rebuilds = false → w'.elements h = w.elements h

variable {R : List (Handle × α) → List (Handle × α) → Prop} {rebuilds : Bool}

theorem Unchanged.noLocal (hu : Unchanged w w' h) (hh : h ≠ .rebuilt) (hn : NoLocal w) : NoLocal w' := by
  unfold NoLocal
  rw [hu.touches.container _ (Ne.symm hh)]
  exact hn

theorem Unchanged.reworked (hu : Unchanged w w' h) (hh : h ≠ .rebuilt) (hn : NoLocal w)
    (hR : ∀ l, R l l) : Reworked w w' h rebuilds R := by
  refine ⟨hu.touches.inv, hu.noLocal hh hn, ?_, fun x hx _ => hu.touches.container x hx,
    fun x _ _ => hu.all x, fun _ => hu.elements⟩
  rw [hu.elements]
  exact hR _

theorem sameValues_refl (l : List (Handle × α)) : SameValues l l := List.Perm.refl _

/-- A rebuild of a hive that may have been trimmed before. -/
theorem rebuild_reworked {limits : Limits} {prepare : HiveM α Unit} (hu : Unchanged w w' h)
    (hn : NoLocal w) (hh : h ≠ .rebuilt) (hp : Prepares prepare w' h limits) :
    Ends (rebuild env h limits prepare) w' (fun _ u => Reworked w u h true SameValues)
      (fun e u => Reworked w u h true (AfterError env e)) := by
  refine (rebuild_spec hu.touches.inv (hu.noLocal hh hn) hh hp).mono ?_ ?_
  · rintro - u ⟨hr, hnone⟩
    refine ⟨hr.inv, hnone, ?_, fun x hx hx' => ?_, fun x hx hx' => ?_, by simp⟩
    · rw [← hu.elements]
      exact hr.values
    · rw [hr.container x hx hx', hu.touches.container x hx]
    · rw [hr.elements x hx hx', hu.all x]
  · rintro e u ⟨hr, hnone⟩
    refine ⟨hr.inv, hnone, ?_, fun x hx hx' => ?_, fun x hx hx' => ?_, by simp⟩
    · rw [← hu.elements]
      exact hr.source
    · rw [hr.container x hx', hu.touches.container x hx]
    · rw [hr.elements x hx hx', hu.all x]

/-- Whether `shrink_to_fit` rebuilds. -/
def shrinkRebuilds (env : Env α) (w : World α) (h : HiveId) : Bool :=
  let w := w.trimCapacity h
  if w.capacity h = w.size h ∨ w.size h = 0 then false
  else
    match planCapacity env w h 0 (w.size h) with
    | none => false
    | some plan => plan.added < w.capacity h

theorem withLocal_limits (limits : Limits) :
    ((withLocal w h limits).container .rebuilt).limits = limits := by
  simp [withLocal, modifyContainer]

theorem withLocal_inv {limits : Limits} (hi : Inv w) (hn : NoLocal w) : Inv (withLocal w h limits) :=
  (modifyContainer_unchanged hi hn.symm : Unchanged w (withLocal w h limits) .rebuilt).touches.inv

/-- The plan is as good for the local hive. -/
theorem PlanOk.local {plan : Plan} (hp : PlanOk w h plan) :
    PlanOk (withLocal w h (w.container h).limits) .rebuilt plan := by
  refine ⟨hp.small, ?_, ?_, ?_, hp.upper⟩
  · rw [withLocal_limits]
    exact hp.positive
  · rw [withLocal_limits]
    exact hp.room
  · rw [withLocal_limits]
    exact hp.lower

/-- The blocks of a plan are allocated. -/
theorem PlanOk.prepares {plan : Plan} (hi : Inv w) (hn : NoLocal w) (hp : PlanOk w h plan)
    (hsize : w.size h ≤ plan.added) :
    Prepares (reserveBlocks env .rebuilt plan.blockMax plan.blocks plan.added) w h
      (w.container h).limits := by
  have hl := PlanOk.local hp
  refine (reserveBlocks_spec hl.small (withLocal_inv hi hn) hl.positive hl.room hl.lower hl.upper).mono
    (fun _ u hu => ⟨hu.1, ?_⟩) fun _ _ hu => hu
  rw [hu.2]
  exact le_trans hsize (Nat.le_add_left _ _)

theorem shrinkToFit_spec (hi : Inv w) (hn : NoLocal w) (hh : h ≠ .rebuilt) :
    Ends (shrinkToFit env h) w
      (fun _ w' => Reworked w w' h (shrinkRebuilds env w h) SameValues)
      (fun e w' => Reworked w w' h (shrinkRebuilds env w h) (AfterError env e)) := by
  have htrim := (trimCapacity_spec (h := h) hi).unchanged
  have hn' := htrim.noLocal hh hn
  simp only [shrinkToFit, ends_bind, ends_modify, ends_get, shrinkRebuilds]
  generalize w.trimCapacity h = u at htrim hn' ⊢
  split
  · exact htrim.reworked hh hn sameValues_refl
  · cases hp : planCapacity env u h 0 (u.size h) with
    | none => exact htrim.reworked hh hn sameValues_refl
    | some plan =>
      simp only
      split
      · exact htrim.reworked hh hn sameValues_refl
      · next hlt =>
        rw [decide_eq_true (Nat.lt_of_not_ge hlt)]
        obtain ⟨hplan, hsize⟩ := planCapacity_spec hp
        rw [Nat.zero_add] at hsize
        exact rebuild_reworked htrim hn hh (PlanOk.prepares htrim.touches.inv hn' hplan hsize)

/-- Whether `reshape` rebuilds. -/
def reshapeRebuilds (w : World α) (h : HiveId) (limits : Limits) : Bool :=
  match (w.container h).control with
  | none => false
  | some c => needsRebuild w limits w.nextBlock (w.control c).activeHead

theorem reshape_spec {limits : Limits} (hi : Inv w) (hn : NoLocal w) (hh : h ≠ .rebuilt) :
    Ends (reshape env h limits) w
      (fun _ w' => Reworked w w' h (reshapeRebuilds w h limits) SameValues)
      (fun e w' => Reworked w w' h (reshapeRebuilds w h limits) (AfterError env e)) := by
  unfold reshape validateLimits
  simp only [ends_bind]
  split
  · simp only [ends_pure, ends_get, reshapeRebuilds]
    cases hc : (w.container h).control with
    | none =>
      simp only [ends_modify]
      have hu : Unchanged w (w.modifyContainer h ({ · with limits := limits })) h :=
        modifyContainer_unchanged hi rfl
      exact hu.reworked hh hn sameValues_refl
    | some c =>
      simp only
      split
      · next hr =>
        rw [hr]
        exact rebuild_reworked (Silent.unchanged .refl hi) hn hh (reserve_spec (withLocal_inv hi hn) _)
      · obtain ⟨S, hS⟩ := hi h c hc
        have hdropped : Dropped w (dropReserved c limits w.nextBlock none w) h c S :=
          dropReserved_spec limits hS (show S.reserved = [] ++ S.reserved from rfl)
        have hdrop := hdropped.sameContents hi hc hS
        simp only [ends_modify]
        have hu : Unchanged (dropReserved c limits w.nextBlock none w)
            ((dropReserved c limits w.nextBlock none w).modifyContainer h ({ · with limits := limits })) h :=
          modifyContainer_unchanged hdrop.unchanged.touches.inv rfl
        have hall : Unchanged w ((dropReserved c limits w.nextBlock none w).modifyContainer h
            ({ · with limits := limits })) h :=
          ⟨hdrop.unchanged.touches.trans hu.touches, hu.elements.trans hdrop.unchanged.elements⟩
        exact hall.reworked hh hn sameValues_refl
  · simp only [ends_throw]
    exact (Silent.unchanged .refl hi).reworked hh hn fun l => by simp [AfterError]

end CCForge.Hive
