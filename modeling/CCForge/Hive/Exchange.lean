import CCForge.Hive.Clearing

/-!
# Exchanging storage between hives

`swap` exchanges two controls. `splice` appends the active blocks of one control to
another one: the active lists are joined, and then each moved block gets its new
control, a new order and a place on the available list of its new control.
-/

namespace CCForge.Hive

open World Effect

variable {α : Type} {env : Env α} {w w' : World α} {h other : HiveId} {c : ControlId} {S : Shape}
  {b : BlockId}

/-! ## Swapping -/

/-- The stores differ only in the hives and in the owners of the controls. -/
structure SameStore (w w' : World α) : Prop where
  block : w'.block = w.block
  lists : ∀ c, SameLists w w' c
  size : ∀ c, (w'.control c).size = (w.control c).size
  capacity : ∀ c, (w'.control c).capacity = (w.control c).capacity
  nextControl : w'.nextControl = w.nextControl

theorem SameStore.represents (hs : SameStore w w') (hr : Represents w c S) : Represents w' c S :=
  hr.of_same (hs.lists c) hs.block (hs.size c) (hs.capacity c)

theorem SameStore.hiveOk (hs : SameStore w w') (hh : HiveOk w h c S)
    (ho : (w'.control c).owner = other) : HiveOk w' other c S :=
  ⟨hs.represents hh.represents, hh.settled, ho, by rw [hs.nextControl]; exact hh.known,
    by rw [(hs.lists c).heap]; exact hh.heap⟩

theorem SameStore.elements (hs : SameStore w w') {x y : HiveId}
    (hc : (w'.container x).control = (w.container y).control) : w'.elements x = w.elements y := by
  have hblocks : w'.activeBlocks x = w.activeBlocks y := by
    unfold World.activeBlocks
    rw [hc]
    cases (w.container y).control with
    | none => rfl
    | some c => simp only [(hs.lists c).activeLinks, (hs.lists c).nextBlock, (hs.lists c).activeHead]
  rw [World.elements, World.elements, hblocks]
  exact elementsOf_congr fun b _ => by rw [hs.block]

theorem sameStore_modifyContainer (f : Container → Container) :
    SameStore w (w.modifyContainer h f) :=
  ⟨rfl, fun _ => ⟨rfl, rfl, rfl, rfl, rfl, rfl, rfl, rfl, rfl, rfl, rfl, rfl, rfl, rfl⟩, fun _ => rfl,
    fun _ => rfl, rfl⟩

theorem SameStore.trans {u : World α} (hs : SameStore w w') (hs' : SameStore w' u) : SameStore w u := by
  refine ⟨hs'.block.trans hs.block, fun c => ?_, fun c => (hs'.size c).trans (hs.size c),
    fun c => (hs'.capacity c).trans (hs.capacity c), hs'.nextControl.trans hs.nextControl⟩
  have h₁ := hs.lists c
  have h₂ := hs'.lists c
  exact ⟨h₂.activeLinks.trans h₁.activeLinks, h₂.availableLinks.trans h₁.availableLinks,
    h₂.reservedNext.trans h₁.reservedNext, h₂.order.trans h₁.order, h₂.active.trans h₁.active,
    h₂.inAvailable.trans h₁.inAvailable, h₂.blockControl.trans h₁.blockControl,
    h₂.heap.trans h₁.heap, h₂.nextBlock.trans h₁.nextBlock, h₂.activeHead.trans h₁.activeHead,
    h₂.activeTail.trans h₁.activeTail, h₂.reservedHead.trans h₁.reservedHead,
    h₂.availableHead.trans h₁.availableHead, h₂.nextBlockOrder.trans h₁.nextBlockOrder⟩

theorem sameStore_setOwner (control : Option ControlId) : SameStore w (setOwner w control h) := by
  cases control with
  | none =>
    exact ⟨rfl, fun _ => ⟨rfl, rfl, rfl, rfl, rfl, rfl, rfl, rfl, rfl, rfl, rfl, rfl, rfl, rfl⟩,
      fun _ => rfl, fun _ => rfl, rfl⟩
  | some k =>
    have hfield : ∀ {β : Type} (g : Control → β) (_ : ∀ x : Control, g { x with owner := h } = g x) c,
        g ((setOwner w (some k) h).control c) = g (w.control c) := by
      intro β g hg c
      by_cases hc : c = k
      · subst hc
        simp [setOwner, hg]
      · simp [setOwner, modifyControl, hc]
    exact ⟨rfl, fun c => ⟨rfl, rfl, rfl, rfl, rfl, rfl, rfl, rfl, rfl, hfield _ (fun _ => rfl) c,
      hfield _ (fun _ => rfl) c, hfield _ (fun _ => rfl) c, hfield _ (fun _ => rfl) c,
      hfield _ (fun _ => rfl) c⟩, hfield _ fun _ => rfl, hfield _ fun _ => rfl, rfl⟩

theorem setOwner_owner (control : Option ControlId) (c : ControlId) :
    ((setOwner w control h).control c).owner =
      if control = some c then h else (w.control c).owner := by
  cases control with
  | none => simp [setOwner]
  | some k =>
    by_cases hc : c = k
    · subst hc
      simp [setOwner]
    · simp [setOwner, modifyControl, hc, Ne.symm hc]

/-- Two hives have exchanged their contents. -/
structure Exchanged (w w' : World α) (h other : HiveId) : Prop where
  inv : Inv w'
  left : w'.elements h = w.elements other
  right : w'.elements other = w.elements h
  elements : ∀ x, x ≠ h → x ≠ other → w'.elements x = w.elements x
  container : ∀ x, x ≠ h → x ≠ other → w'.container x = w.container x
  limits : (w'.container h).limits = (w.container other).limits ∧
    (w'.container other).limits = (w.container h).limits

theorem swap_spec (hi : Inv w) (hne : h ≠ other) : Exchanged w (swap env w h other) h other := by
  have hne' : other ≠ h := Ne.symm hne
  obtain ⟨w₁, hw₁⟩ : ∃ w₁, w₁ = (w.modifyContainer h fun k =>
      { k with
        alloc := if env.pocs then (w.container other).alloc else k.alloc
        control := (w.container other).control
        limits := (w.container other).limits }).modifyContainer other fun k =>
      { k with
        alloc := if env.pocs then (w.container h).alloc else k.alloc
        control := (w.container h).control
        limits := (w.container h).limits } := ⟨_, rfl⟩
  have hswap : swap env w h other = ((setOwner (setOwner w₁ (w.container other).control h)
      (w.container h).control other).touchEnd h).touchEnd other := by
    rw [hw₁]
    exact if_neg hne
  have hs₁ : SameStore w w₁ := by
    rw [hw₁]
    exact (sameStore_modifyContainer _).trans (sameStore_modifyContainer _)
  have hs : SameStore w (swap env w h other) := by
    rw [hswap]
    exact (((hs₁.trans (sameStore_setOwner _)).trans (sameStore_setOwner _)).trans
      (sameStore_modifyContainer _)).trans (sameStore_modifyContainer _)
  have hset : ∀ (u : World α) (k : Option ControlId) (x : HiveId),
      (setOwner u k x).container = u.container := by
    intro u k x
    cases k <;> rfl
  have hleft : ((swap env w h other).container h).control = (w.container other).control ∧
      ((swap env w h other).container h).limits = (w.container other).limits := by
    rw [hswap, hw₁]
    simp [touchEnd, modifyContainer, hset, hne]
  have hright : ((swap env w h other).container other).control = (w.container h).control ∧
      ((swap env w h other).container other).limits = (w.container h).limits := by
    rw [hswap, hw₁]
    simp [touchEnd, modifyContainer, hset, hne']
  have hrest : ∀ x, x ≠ h → x ≠ other → (swap env w h other).container x = w.container x := by
    intro x hx hx'
    rw [hswap, hw₁]
    simp [touchEnd, modifyContainer, hset, hx, hx']
  have howner : ∀ k, ((swap env w h other).control k).owner =
      if (w.container h).control = some k then other
      else if (w.container other).control = some k then h else (w.control k).owner := by
    intro k
    have hk : ((swap env w h other).control k).owner =
        ((setOwner (setOwner w₁ (w.container other).control h) (w.container h).control
          other).control k).owner := by
      rw [hswap]
      rfl
    rw [hk, setOwner_owner, setOwner_owner, hw₁]
    rfl
  refine ⟨fun x k hk => ?_, hs.elements hleft.1, hs.elements hright.1,
    fun x hx hx' => hs.elements (by rw [hrest x hx hx']), hrest, hleft.2, hright.2⟩
  by_cases hx : x = h
  · subst hx
    rw [hleft.1] at hk
    obtain ⟨S, hS⟩ := hi other k hk
    refine ⟨S, hs.hiveOk hS ?_⟩
    rw [howner, if_neg, if_pos hk]
    intro hc
    obtain ⟨T, hT⟩ := hi x k hc
    exact hne (hS.unique hT)
  · by_cases hx' : x = other
    · subst hx'
      rw [hright.1] at hk
      obtain ⟨S, hS⟩ := hi h k hk
      refine ⟨S, hs.hiveOk hS ?_⟩
      rw [howner, if_pos hk]
    · rw [hrest x hx hx'] at hk
      obtain ⟨S, hS⟩ := hi x k hk
      refine ⟨S, hs.hiveOk hS ?_⟩
      have hother : ∀ y, y ≠ x → (w.container y).control ≠ some k := by
        intro y hy hc
        obtain ⟨T, hT⟩ := hi y k hc
        exact hy (hS.unique hT)
      rw [howner, if_neg (hother h (Ne.symm hx)), if_neg (hother other (Ne.symm hx'))]
      exact hS.owner

/-! ## Moving blocks -/

/-- The blocks in `l` have moved to the control `d`, whose available list was `A`. -/
structure Moved (w w' : World α) (d : ControlId) (A l : List BlockId) : Prop where
  block : w'.block = w.block
  activeLinks : w'.activeLinks = w.activeLinks
  reservedNext : w'.reservedNext = w.reservedNext
  active : w'.active = w.active
  inAvailable : w'.inAvailable = w.inAvailable
  heap : w'.heap = w.heap
  container : w'.container = w.container
  nextBlock : w'.nextBlock = w.nextBlock
  nextControl : w'.nextControl = w.nextControl
  control : ∀ k, k ≠ d → w'.control k = w.control k
  fields : ∃ head stamp, w'.control d =
    { w.control d with availableHead := head, nextBlockOrder := stamp }
  blockControl : ∀ x, w'.blockControl x = if x ∈ l then d else w.blockControl x
  orderOut : ∀ x, x ∉ l → w'.order x = w.order x
  ordered : l.Pairwise fun a b => w'.order a < w'.order b
  stamps : ∀ x ∈ l, (w.control d).nextBlockOrder ≤ w'.order x ∧
    w'.order x < (w'.control d).nextBlockOrder
  stampLe : (w.control d).nextBlockOrder ≤ (w'.control d).nextBlockOrder
  head : (w'.control d).availableHead = ((l.filter w.inAvailable).reverse ++ A).head?
  seg : w'.availableLinks.Seg none ((l.filter w.inAvailable).reverse ++ A) none
  clean : ∀ x ∈ l, w.inAvailable x = false →
    w'.availableLinks.next x = none ∧ w'.availableLinks.prev x = none
  links : ∀ x, x ∉ l → x ∉ A → w.availableLinks.SameAt w'.availableLinks x

variable {d : ControlId} {A l : List BlockId}

theorem Moved.refl (hhead : (w.control d).availableHead = A.head?)
    (hseg : w.availableLinks.Seg none A none) : Moved w w d A [] :=
  ⟨rfl, rfl, rfl, rfl, rfl, rfl, rfl, rfl, rfl, fun _ _ => rfl, ⟨_, _, rfl⟩, by simp, fun _ _ => rfl,
    .nil, by simp, le_refl _, hhead, hseg, by simp, fun _ _ _ => .rfl⟩

/-- One block moves. -/
theorem spliceBlock_spec (hhead : (w.control d).availableHead = A.head?)
    (hseg : w.availableLinks.Seg none A none) (hb : (b :: A).Nodup) :
    Moved w (spliceBlock w d b) d A [b] := by
  have hbA := (List.nodup_cons.mp hb).1
  have hputSeg : (w.availableLinks.put b none none).Seg none A none :=
    hseg.of_same fun x hx => Links.put_same fun he => hbA (he ▸ hx)
  have hfilter : ∀ t, w.inAvailable b = t →
      ([b].filter w.inAvailable).reverse ++ A = if t then b :: A else A := by
    rintro t rfl
    cases hav : w.inAvailable b <;> simp [hav]
  have hmem : ∀ x, x ∉ [b] → x ≠ b := fun x hx => by simpa using hx
  cases hav : w.inAvailable b with
  | true =>
    -- the block goes to the head of the available list of its new control
    have heq : spliceBlock w d b = World.availableAdd
        { w.modifyControl d (fun k => { k with nextBlockOrder := k.nextBlockOrder + 1 }) with
          availableLinks := w.availableLinks.put b none none
          inAvailable := Function.update w.inAvailable b false
          blockControl := Function.update w.blockControl b d
          order := Function.update w.order b (w.control d).nextBlockOrder } d b := if_pos hav
    have hlinks : (spliceBlock w d b).availableLinks =
        (w.availableLinks.put b none none).push A.head? b := by
      rw [heq]
      simp [World.availableAdd, hhead]
    have hcontrol : (spliceBlock w d b).control d =
        { w.control d with
          availableHead := some b
          nextBlockOrder := (w.control d).nextBlockOrder + 1 } := by
      rw [heq]
      simp [World.availableAdd]
    have horder : (spliceBlock w d b).order =
        Function.update w.order b (w.control d).nextBlockOrder := by
      rw [heq]
      rfl
    refine ⟨by rw [heq]; rfl, by rw [heq]; rfl, by rw [heq]; rfl, by rw [heq]; rfl, ?_, by rw [heq]; rfl,
      by rw [heq]; rfl, by rw [heq]; rfl, by rw [heq]; rfl, fun k hk => ?_, ⟨_, _, hcontrol⟩,
      fun x => ?_, fun x hx => ?_, List.pairwise_singleton _ _, fun x hx => ?_, ?_, ?_, ?_, ?_,
      fun x hx hxA => ?_⟩
    · have hself : Function.update w.inAvailable b true = w.inAvailable := by
        rw [← hav]
        exact Function.update_eq_self b w.inAvailable
      rw [heq]
      simp [World.availableAdd, modifyControl, hself]
    · rw [heq]
      simp [World.availableAdd, modifyControl, hk]
    · rw [heq]
      simp [World.availableAdd, modifyControl, Function.update_apply]
    · rw [horder]
      exact Function.update_of_ne (hmem x hx) _ _
    · rw [List.mem_singleton.mp hx, horder, hcontrol, Function.update_self]
      exact ⟨le_refl _, Nat.lt_succ_self _⟩
    · rw [hcontrol]
      exact Nat.le_succ _
    · rw [hfilter true hav, hcontrol]
      rfl
    · rw [hfilter true hav, hlinks]
      exact hputSeg.push hb
    · intro x hx hx'
      rw [List.mem_singleton.mp hx, hav] at hx'
      simp at hx'
    · rw [hlinks]
      exact (Links.put_same (hmem x hx)).trans (Links.push_same (by simp [hmem x hx, hxA]))
  | false =>
    have heq : spliceBlock w d b =
        { w.modifyControl d (fun k => { k with nextBlockOrder := k.nextBlockOrder + 1 }) with
          availableLinks := w.availableLinks.put b none none
          inAvailable := Function.update w.inAvailable b false
          blockControl := Function.update w.blockControl b d
          order := Function.update w.order b (w.control d).nextBlockOrder } :=
      if_neg (by simp [hav])
    have hcontrol : (spliceBlock w d b).control d =
        { w.control d with
          availableHead := (w.control d).availableHead
          nextBlockOrder := (w.control d).nextBlockOrder + 1 } := by
      rw [heq]
      simp
    have horder : (spliceBlock w d b).order =
        Function.update w.order b (w.control d).nextBlockOrder := by
      rw [heq]
    refine ⟨by rw [heq]; rfl, by rw [heq]; rfl, by rw [heq]; rfl, by rw [heq]; rfl, ?_, by rw [heq]; rfl,
      by rw [heq]; rfl, by rw [heq]; rfl, by rw [heq]; rfl, fun k hk => ?_, ⟨_, _, hcontrol⟩,
      fun x => ?_, fun x hx => ?_, List.pairwise_singleton _ _, fun x hx => ?_, ?_, ?_, ?_, ?_,
      fun x hx hxA => ?_⟩
    · rw [heq, ← hav]
      exact Function.update_eq_self b w.inAvailable
    · rw [heq]
      simp [modifyControl, hk]
    · rw [heq]
      simp [Function.update_apply]
    · rw [horder]
      exact Function.update_of_ne (hmem x hx) _ _
    · rw [List.mem_singleton.mp hx, horder, hcontrol, Function.update_self]
      exact ⟨le_refl _, Nat.lt_succ_self _⟩
    · rw [hcontrol]
      exact Nat.le_succ _
    · rw [hfilter false hav, hcontrol]
      exact hhead
    · rw [hfilter false hav, heq]
      exact hputSeg
    · intro x hx _
      rw [List.mem_singleton.mp hx, heq]
      simp
    · rw [heq]
      exact Links.put_same (hmem x hx)

theorem Moved.trans {u : World α} (hm : Moved w w' d A [b])
    (hm' : Moved w' u d (([b].filter w.inAvailable).reverse ++ A) l) (hb : b ∉ l ++ A) :
    Moved w u d A (b :: l) := by
  have hbl : b ∉ l := fun hx => hb (List.mem_append_left _ hx)
  have hne : ∀ x ∈ l, x ∉ [b] := fun x hx he => hbl (by
    rw [← List.mem_singleton.mp he]
    exact hx)
  obtain ⟨head₁, stamp₁, hc₁⟩ := hm.fields
  obtain ⟨head₂, stamp₂, hc₂⟩ := hm'.fields
  have hlist : ((b :: l).filter w.inAvailable).reverse ++ A =
      (l.filter w'.inAvailable).reverse ++ (([b].filter w.inAvailable).reverse ++ A) := by
    rw [hm.inAvailable]
    cases hav : w.inAvailable b <;> simp [hav]
  refine ⟨hm'.block.trans hm.block, hm'.activeLinks.trans hm.activeLinks,
    hm'.reservedNext.trans hm.reservedNext, hm'.active.trans hm.active,
    hm'.inAvailable.trans hm.inAvailable, hm'.heap.trans hm.heap, hm'.container.trans hm.container,
    hm'.nextBlock.trans hm.nextBlock, hm'.nextControl.trans hm.nextControl,
    fun k hk => (hm'.control k hk).trans (hm.control k hk), ⟨head₂, stamp₂, by rw [hc₂, hc₁]⟩,
    fun x => ?_, fun x hx => ?_, ?_, ?_, le_trans hm.stampLe hm'.stampLe, ?_, ?_, ?_, fun x hx hxA => ?_⟩
  · rw [hm'.blockControl, hm.blockControl]
    simp only [List.mem_cons]
    split_ifs <;> simp_all
  · rw [List.mem_cons, not_or] at hx
    rw [hm'.orderOut x hx.2, hm.orderOut x (by simpa using hx.1)]
  · rw [List.pairwise_cons]
    refine ⟨fun x hx => ?_, hm'.ordered⟩
    rw [hm'.orderOut b hbl]
    exact lt_of_lt_of_le (hm.stamps b (by simp)).2 (hm'.stamps x hx).1
  · intro x hx
    rcases List.mem_cons.mp hx with rfl | hx
    · rw [hm'.orderOut x hbl]
      exact ⟨(hm.stamps x (by simp)).1, lt_of_lt_of_le (hm.stamps x (by simp)).2 hm'.stampLe⟩
    · exact ⟨le_trans hm.stampLe (hm'.stamps x hx).1, (hm'.stamps x hx).2⟩
  · rw [hlist]
    exact hm'.head
  · rw [hlist]
    exact hm'.seg
  · intro x hx hav
    rcases List.mem_cons.mp hx with rfl | hx
    · have hsame := hm'.links x hbl (by
        simp only [List.filter_cons, hav, Bool.false_eq_true, if_false, List.filter_nil,
          List.reverse_nil, List.nil_append]
        exact fun hA => hb (List.mem_append_right _ hA))
      rw [hsame.next, hsame.prev]
      exact hm.clean x (by simp) hav
    · exact hm'.clean x hx (by rw [hm.inAvailable]; exact hav)
  · rw [List.mem_cons, not_or] at hx
    refine (hm.links x (by simpa using hx.1) hxA).trans (hm'.links x hx.2 ?_)
    rw [List.mem_append, List.mem_reverse, List.mem_filter, not_or]
    exact ⟨fun hm => hx.1 (List.mem_singleton.mp hm.1), hxA⟩

theorem spliceFrom_spec {fuel : ℕ} {start : Option BlockId}
    (hhead : (w.control d).availableHead = A.head?) (hseg : w.availableLinks.Seg none A none)
    (hl : Chain w.activeLinks.next start l) (hn : (l ++ A).Nodup) (hf : l.length ≤ fuel) :
    Moved w (spliceFrom d fuel start w) d A l := by
  induction l generalizing w start fuel A with
  | nil =>
    rw [show start = none from hl]
    cases fuel <;> exact .refl hhead hseg
  | cons b l ih =>
    obtain ⟨rfl, hl⟩ := hl
    rw [List.cons_append] at hn
    obtain ⟨hb, hn⟩ := List.nodup_cons.mp hn
    obtain ⟨hnl, hnA, hdis⟩ := List.nodup_append.mp hn
    cases fuel with
    | zero => simp at hf
    | succ n =>
      have hbA : (b :: A).Nodup :=
        List.nodup_cons.mpr ⟨fun hx => hb (List.mem_append_right _ hx), hnA⟩
      have hstep := spliceBlock_spec hhead hseg hbA
      rw [spliceFrom]
      refine hstep.trans (ih hstep.head hstep.seg ?_ ?_ (by simpa using hf)) hb
      · rw [hstep.activeLinks]
        exact hl
      · rw [List.nodup_append]
        cases hav : w.inAvailable b
        · simp only [List.filter_cons, hav, Bool.false_eq_true, if_false, List.filter_nil,
            List.reverse_nil, List.nil_append]
          exact ⟨hnl, hnA, hdis⟩
        · simp only [List.filter_cons, hav, if_true, List.filter_nil, List.reverse_singleton,
            List.singleton_append]
          refine ⟨hnl, hbA, fun x hx y hy he => ?_⟩
          rcases List.mem_cons.mp hy with rfl | hy
          · exact hb (List.mem_append_left _ (he ▸ hx))
          · exact hdis x hx y hy he

/-! ## Splicing -/

theorem World.HiveOk.disjoint {D T : Shape} {s : ControlId} (hd : HiveOk w h d D) (hs : HiveOk w other s T)
    (hne : s ≠ d) (hb : b ∈ T.blocks) : b ∉ D.blocks := by
  intro hm
  exact hne ((hs.represents.lists.mem_owned hb).symm.trans (hd.represents.lists.mem_owned hm))

/-- The active lists are joined. -/
theorem spliceJoin_seg {D T : Shape} {s : ControlId} (hd : ActivePart w d D) (hs : ActivePart w s T)
    (hn : (D.active ++ T.active).Nodup) (hT : T.active ≠ []) :
    (spliceJoin w s d).activeLinks.Seg none (D.active ++ T.active) none := by
  have hlast : (D.active ++ T.active).getLast? = T.active.getLast? := by
    rw [List.getLast?_append_of_ne_nil _ hT]
  simp only [spliceJoin, hd.tail, hs.head, hs.tail]
  rw [← hlast]
  exact (hd.seg.join hs.seg hn).redirect_last hn

theorem spliceJoin_same {D T : Shape} {s : ControlId} (hd : ActivePart w d D) (hs : ActivePart w s T)
    (hb : b ∉ D.active ++ T.active) : w.activeLinks.SameAt (spliceJoin w s d).activeLinks b := by
  rw [List.mem_append, not_or] at hb
  simp only [spliceJoin, hd.tail, hs.head, hs.tail]
  refine ((Links.setNextOf_same fun he => ?_).trans (Links.setPrevOf_same fun he => ?_)).trans
    (Links.setNextOf_same fun he => ?_)
  · exact hb.1 (List.mem_of_getLast? he)
  · exact hb.2 (List.mem_of_head? he)
  · exact hb.2 (List.mem_of_getLast? he)

/-- What the commit of `splice` does, column by column. -/
structure Committed (w w' : World α) (s d : ControlId) (D T : Shape) : Prop where
  block : w'.block = w.block
  activeLinks : w'.activeLinks = (spliceJoin w s d).activeLinks
  reservedNext : w'.reservedNext = w.reservedNext
  active : w'.active = w.active
  inAvailable : w'.inAvailable = w.inAvailable
  heap : w'.heap = w.heap
  container : w'.container = w.container
  nextBlock : w'.nextBlock = w.nextBlock
  nextControl : w'.nextControl = w.nextControl
  control : ∀ k, k ≠ s → k ≠ d → w'.control k = w.control k
  source : w'.control s = { w.control s with
    activeHead := none, activeTail := none, availableHead := none, size := 0
    capacity := (w.control s).capacity - w.totalCapacity T.active }
  destination : ∃ stamp, w'.control d = { w.control d with
    activeHead := (D.active ++ T.active).head?
    activeTail := (D.active ++ T.active).getLast?
    availableHead := ((T.active.filter w.inAvailable).reverse ++ D.available).head?
    nextBlockOrder := stamp
    size := (w.control d).size + (w.control s).size
    capacity := (w.control d).capacity + w.totalCapacity T.active }
  blockControl : ∀ x, w'.blockControl x = if x ∈ T.active then d else w.blockControl x
  orderOut : ∀ x, x ∉ T.active → w'.order x = w.order x
  ordered : T.active.Pairwise fun a b => w'.order a < w'.order b
  stamps : ∀ x ∈ T.active, (w.control d).nextBlockOrder ≤ w'.order x ∧
    w'.order x < (w'.control d).nextBlockOrder
  stampLe : (w.control d).nextBlockOrder ≤ (w'.control d).nextBlockOrder
  seg : w'.availableLinks.Seg none ((T.active.filter w.inAvailable).reverse ++ D.available) none
  clean : ∀ x ∈ T.active, w.inAvailable x = false →
    w'.availableLinks.next x = none ∧ w'.availableLinks.prev x = none
  links : ∀ x, x ∉ T.active → x ∉ D.available → w.availableLinks.SameAt w'.availableLinks x

theorem active_append_nodup {D T : Shape} {s : ControlId} (hd : HiveOk w h d D)
    (hs : HiveOk w other s T) (hne : s ≠ d) : (D.active ++ T.active).Nodup := by
  refine List.nodup_append.mpr ⟨hd.represents.lists.active_nodup, hs.represents.lists.active_nodup,
    fun x hx y hy he => ?_⟩
  exact hd.disjoint hs hne (Shape.mem_blocks.mpr (.inl hy)) (Shape.mem_blocks.mpr (.inl (he ▸ hx)))

theorem spliceCommit_committed {D T : Shape} {s : ControlId} (hd : HiveOk w h d D)
    (hs : HiveOk w other s T) (hne : s ≠ d) (hT : T.active ≠ []) :
    Committed w (spliceCommit w s d (w.totalCapacity T.active)) s d D T := by
  have hD := hd.represents.lists
  have hS := hs.represents.lists
  have hnodup := active_append_nodup hd hs hne
  have hseg := spliceJoin_seg hD.active hS.active hnodup hT
  have hlast : (D.active ++ T.active).getLast? = T.active.getLast? := by
    rw [List.getLast?_append_of_ne_nil _ hT]
  have hhead : (if (w.control d).activeTail.isNone then (w.control s).activeHead
      else (w.control d).activeHead) = (D.active ++ T.active).head? := by
    rw [hD.active.tail, hS.active.head, hD.active.head]
    cases D.active with
    | nil => simp
    | cons x l => simp [List.getLast?_cons]
  have hchain : Chain (spliceJoin w s d).activeLinks.next (w.control s).activeHead T.active := by
    rw [hS.active.head]
    exact (Links.seg_append.mp hseg).2.chain
  -- the active lists are joined first, and then the blocks move one by one
  have hmoved : Moved (spliceJoin w s d)
      (spliceFrom d (spliceJoin w s d).nextBlock (w.control s).activeHead (spliceJoin w s d)) d
      D.available T.active := by
    refine spliceFrom_spec ?_ ?_ hchain ?_ hS.active_length_le
    · simp only [spliceJoin, modifyControl_self]
      exact hD.available.head
    · exact hD.available.seg
    · refine List.nodup_append.mpr ⟨hS.active_nodup, hD.available.nodup, fun x hx y hy he => ?_⟩
      exact hd.disjoint hs hne (Shape.mem_blocks.mpr (.inl hx))
        (Shape.mem_blocks.mpr (.inl (he ▸ hD.available.sub y hy)))
  obtain ⟨u, hu⟩ : ∃ u, u = spliceFrom d (spliceJoin w s d).nextBlock (w.control s).activeHead
      (spliceJoin w s d) := ⟨_, rfl⟩
  rw [← hu] at hmoved
  have hus : u.control s = w.control s := by
    rw [hmoved.control s hne]
    simp [spliceJoin, modifyControl, hne]
  obtain ⟨head, stamp, hud⟩ := hmoved.fields
  have hjoin : ((spliceJoin w s d).control d).nextBlockOrder = (w.control d).nextBlockOrder := by
    simp [spliceJoin]
  have hdest : (spliceCommit w s d (w.totalCapacity T.active)).control d = { w.control d with
      activeHead := (D.active ++ T.active).head?
      activeTail := (D.active ++ T.active).getLast?
      availableHead := ((T.active.filter w.inAvailable).reverse ++ D.available).head?
      nextBlockOrder := (u.control d).nextBlockOrder
      size := (w.control d).size + (w.control s).size
      capacity := (w.control d).capacity + w.totalCapacity T.active } := by
    have hav := hmoved.head
    rw [show (spliceJoin w s d).inAvailable = w.inAvailable from rfl] at hav
    rw [← hav]
    simp only [spliceCommit, ← hu]
    rw [modifyControl_self, modifyControl_other _ (Ne.symm hne), hud]
    simp only [spliceJoin, modifyControl_self]
    rw [hhead, hlast, hS.active.tail]
  have hcols : spliceCommit w s d (w.totalCapacity T.active) =
      { u with control := (spliceCommit w s d (w.totalCapacity T.active)).control } := by
    simp only [spliceCommit, ← hu]
    rfl
  have hsrc : (spliceCommit w s d (w.totalCapacity T.active)).control s = { w.control s with
      activeHead := none, activeTail := none, availableHead := none, size := 0
      capacity := (w.control s).capacity - w.totalCapacity T.active } := by
    simp only [spliceCommit, ← hu]
    rw [modifyControl_other _ hne, modifyControl_self, hus]
  have hrest : ∀ k, k ≠ s → k ≠ d →
      (spliceCommit w s d (w.totalCapacity T.active)).control k = w.control k := by
    intro k hk hk'
    simp only [spliceCommit, ← hu]
    rw [modifyControl_other _ hk', modifyControl_other _ hk, hmoved.control k hk']
    simp [spliceJoin, modifyControl, hk']
  generalize spliceCommit w s d (w.totalCapacity T.active) = w' at hdest hcols hsrc hrest ⊢
  have hstamps : (w'.control d).nextBlockOrder = (u.control d).nextBlockOrder := by rw [hdest]
  rw [hcols]
  refine ⟨hmoved.block, hmoved.activeLinks, hmoved.reservedNext, hmoved.active, hmoved.inAvailable,
    hmoved.heap, hmoved.container, hmoved.nextBlock, hmoved.nextControl, hrest, hsrc, ⟨_, hdest⟩,
    hmoved.blockControl, hmoved.orderOut, hmoved.ordered, ?_, ?_, hmoved.seg, hmoved.clean,
    hmoved.links⟩
  · intro x hx
    have hx' := hmoved.stamps x hx
    rw [hjoin, ← hstamps] at hx'
    exact hx'
  · have hle := hmoved.stampLe
    rw [hjoin, ← hstamps] at hle
    exact hle

variable {D T : Shape} {s : ControlId}

/-- A block keeps its memory. -/
theorem Committed.owned (hc : Committed w w' s d D T) {x : BlockId} {k c : ControlId}
    (hown : Owned w c x) (hk : w'.blockControl x = k) : Owned w' k x :=
  hown.of_columns hk hc.nextBlock fun _ _ => by rw [hc.heap]

/-- The source keeps its reserved blocks. -/
theorem Committed.source_ok (hc : Committed w w' s d D T)
    (hd : HiveOk w h d D) (hs : HiveOk w other s T) (hne : s ≠ d) :
    HiveOk w' other s ⟨[], T.reserved, [], []⟩ := by
  have hL := hs.represents.lists
  have hin : ∀ x ∈ (⟨[], T.reserved, [], []⟩ : Shape).blocks, x ∈ T.reserved := by
    simp [Shape.mem_blocks]
  have hblocks : ∀ x ∈ T.reserved, x ∈ T.blocks := fun x hx => Shape.mem_blocks.mpr (.inr (.inl hx))
  have hact : ∀ x ∈ T.reserved, x ∉ T.active := fun x hx hm => hL.notMem_reserved hm hx
  have hav : ∀ x ∈ T.reserved, x ∉ T.available := fun x hx hm =>
    hact x hx (hL.available.sub x hm)
  have hD : ∀ x ∈ T.reserved, x ∉ D.active := fun x hx hm =>
    hd.disjoint hs hne (hblocks x hx) (Shape.mem_blocks.mpr (.inl hm))
  have hsrc := hc.source
  refine ⟨⟨⟨⟨?_, ?_, trivial, .nil, by simp, fun x hx => ?_, fun x hx _ => ?_⟩,
    ⟨?_, trivial, List.nodup_nil, by simp, fun x hx => ?_, fun x hx _ => ?_⟩,
    ⟨?_, fun x hx hn => absurd (hin x hx) hn⟩, ?_, fun x hx => ?_⟩,
    ⟨by simp, by simp, fun x hx => ?_, fun x hx => ?_⟩, ?_, ?_⟩, rfl, ?_, ?_, ?_⟩
  · rw [hsrc]
    rfl
  · rw [hsrc]
    rfl
  · have hflag := hL.active.flag x (hblocks x (hin x hx))
    rw [hc.active, hflag]
    simp [hact x (hin x hx)]
  · have hsame := spliceJoin_same (d := d) hd.represents.lists.active hL.active
      (b := x) (by simp [hD x (hin x hx), hact x (hin x hx)])
    rw [hc.activeLinks, hsame.next, hsame.prev]
    exact hL.active.clean x (hblocks x (hin x hx)) (hact x (hin x hx))
  · rw [hsrc]
    rfl
  · have hflag := hL.available.flag x (hblocks x (hin x hx))
    rw [hc.inAvailable, hflag]
    simp [hav x (hin x hx)]
  · have hsame := hc.links x (hact x (hin x hx)) fun hm =>
      hD x (hin x hx) (hd.represents.lists.available.sub x hm)
    rw [hsame.next, hsame.prev]
    exact hL.available.clean x (hblocks x (hin x hx)) (hav x (hin x hx))
  · rw [hsrc, hc.reservedNext]
    exact hL.reserved.chain
  · have hn := hL.nodup
    simp only [Shape.blocks] at hn
    simp only [Shape.blocks, List.nil_append, List.append_nil]
    exact (List.nodup_append.mp (List.nodup_append.mp hn).1).2.1
  · have hown := hL.owned x (hblocks x (hin x hx))
    refine hc.owned hown ?_
    rw [hc.blockControl, if_neg (hact x (hin x hx))]
    exact hown.control
  · rw [hc.block]
    exact hs.represents.filled.reserved x hx
  · rw [hc.block]
    exact hs.represents.filled.capacity x (hblocks x (hin x hx))
  · rw [hsrc]
    rfl
  · have hsum := hs.represents.capacity
    simp only [Shape.blocks, hs.settled, List.append_nil, totalCapacity_append] at hsum
    have hsame : w'.totalCapacity T.reserved = w.totalCapacity T.reserved :=
      totalCapacity_congr fun _ _ => by rw [hc.block]
    rw [hsrc]
    simp only [Shape.blocks, List.nil_append, List.append_nil]
    omega
  · rw [hsrc]
    exact hs.owner
  · rw [hc.nextControl]
    exact hs.known
  · rw [hc.heap]
    exact hs.heap

/-- The destination has the active blocks of both. -/
def joined (w : World α) (D T : Shape) : Shape :=
  ⟨D.active ++ T.active, D.reserved, (T.active.filter w.inAvailable).reverse ++ D.available, []⟩

theorem joined_cases (hd : HiveOk w h d D) (hs : HiveOk w other s T) (hne : s ≠ d) {x : BlockId}
    (hx : x ∈ (joined w D T).blocks) : x ∈ D.blocks ∧ x ∉ T.active ∨ x ∈ T.active := by
  have hleft : x ∈ D.blocks → x ∈ D.blocks ∧ x ∉ T.active := fun hxD =>
    ⟨hxD, fun hm => hd.disjoint hs hne (Shape.mem_blocks.mpr (.inl hm)) hxD⟩
  simp only [joined, Shape.mem_blocks, List.mem_append, List.not_mem_nil, or_false] at hx
  rcases hx with (hx | hx) | hx
  · exact .inl (hleft (Shape.mem_blocks.mpr (.inl hx)))
  · exact .inr hx
  · exact .inl (hleft (Shape.mem_blocks.mpr (.inr (.inl hx))))

theorem mem_joined_available (hd : HiveOk w h d D) (hs : HiveOk w other s T) (hne : s ≠ d)
    {x : BlockId} (hx : x ∈ T.active) :
    x ∈ (joined w D T).available ↔ w.inAvailable x = true := by
  have hxD : x ∉ D.available := fun hm => hd.disjoint hs hne (Shape.mem_blocks.mpr (.inl hx))
    (Shape.mem_blocks.mpr (.inl (hd.represents.lists.available.sub x hm)))
  simp [joined, hx, hxD]

theorem mem_joined_available_of_notMem {x : BlockId} (hx : x ∉ T.active) :
    x ∈ (joined w D T).available ↔ x ∈ D.available := by
  simp [joined, hx]

theorem joined_blocks_nodup (hd : HiveOk w h d D) (hs : HiveOk w other s T) (hne : s ≠ d) :
    (joined w D T).blocks.Nodup := by
  have hD := hd.represents.lists
  have hres : D.reserved.Nodup := by
    have hn := hD.nodup
    simp only [Shape.blocks] at hn
    exact (List.nodup_append.mp (List.nodup_append.mp hn).1).2.1
  simp only [joined, Shape.blocks, List.append_nil]
  refine List.nodup_append.mpr ⟨active_append_nodup hd hs hne, hres, fun x hx y hy he => ?_⟩
  have hxR : x ∈ D.reserved := he ▸ hy
  rcases List.mem_append.mp hx with hx | hx
  · exact hD.notMem_reserved hx hxR
  · exact hd.disjoint hs hne (Shape.mem_blocks.mpr (.inl hx)) (Shape.mem_blocks.mpr (.inr (.inl hxR)))

/-- The blocks of the destination keep their orders, and the others get later ones. -/
theorem Committed.active_joined (hc : Committed w w' s d D T) (hd : HiveOk w h d D)
    (hs : HiveOk w other s T) (hne : s ≠ d) (hT : T.active ≠ []) :
    ActivePart w' d (joined w D T) := by
  have hD := hd.represents.lists
  have hS := hs.represents.lists
  obtain ⟨stamp, hdest⟩ := hc.destination
  have hkept : ∀ x ∈ D.active, w'.order x = w.order x := fun x hx =>
    hc.orderOut x fun hm =>
      hd.disjoint hs hne (Shape.mem_blocks.mpr (.inl hm)) (Shape.mem_blocks.mpr (.inl hx))
  refine ⟨?_, ?_, ?_, ?_, fun x hx => ?_, fun x hx => ?_, fun x hx hn => ?_⟩
  · rw [hdest]
    rfl
  · rw [hdest]
    rfl
  · rw [hc.activeLinks]
    exact spliceJoin_seg hD.active hS.active (active_append_nodup hd hs hne) hT
  · refine List.pairwise_append.mpr ⟨?_, hc.ordered, fun x hx y hy => ?_⟩
    · refine hD.active.ordered.imp_of_mem fun {a b} ha hb hlt => ?_
      rw [hkept a ha, hkept b hb]
      exact hlt
    · rw [hkept x hx]
      exact lt_of_lt_of_le (hD.active.stamped x hx) (hc.stamps y hy).1
  · rcases List.mem_append.mp hx with hx | hx
    · rw [hkept x hx]
      exact lt_of_lt_of_le (hD.active.stamped x hx) hc.stampLe
    · exact (hc.stamps x hx).2
  · rw [hc.active]
    rcases joined_cases hd hs hne hx with ⟨hxD, hxT⟩ | hxT
    · rw [hD.active.flag x hxD]
      simp [joined, hxT]
    · rw [hS.active.flag x (Shape.mem_blocks.mpr (.inl hxT))]
      simp [joined, hxT]
  · have hsame := spliceJoin_same (d := d) hD.active hS.active hn
    rw [hc.activeLinks, hsame.next, hsame.prev]
    rcases joined_cases hd hs hne hx with ⟨hxD, -⟩ | hxT
    · exact hD.active.clean x hxD fun hm => hn (List.mem_append_left _ hm)
    · exact absurd (List.mem_append_right _ hxT) hn

theorem Committed.available_joined (hc : Committed w w' s d D T) (hd : HiveOk w h d D)
    (hs : HiveOk w other s T) (hne : s ≠ d) : AvailablePart w' d (joined w D T) := by
  have hD := hd.represents.lists
  have hS := hs.represents.lists
  obtain ⟨stamp, hdest⟩ := hc.destination
  refine ⟨?_, hc.seg, ?_, fun x hx => ?_, fun x hx => ?_, fun x hx hn => ?_⟩
  · rw [hdest]
    rfl
  · refine List.nodup_append.mpr ⟨?_, hD.available.nodup, fun x hx y hy he => ?_⟩
    · exact List.nodup_reverse.mpr (hS.active_nodup.filter _)
    · rw [List.mem_reverse, List.mem_filter] at hx
      exact hd.disjoint hs hne (Shape.mem_blocks.mpr (.inl hx.1))
        (Shape.mem_blocks.mpr (.inl (hD.available.sub x (he ▸ hy))))
  · rcases List.mem_append.mp hx with hx | hx
    · rw [List.mem_reverse, List.mem_filter] at hx
      exact List.mem_append_right _ hx.1
    · exact List.mem_append_left _ (hD.available.sub x hx)
  · rw [hc.inAvailable]
    rcases joined_cases hd hs hne hx with ⟨hxD, hxT⟩ | hxT
    · rw [hD.available.flag x hxD, mem_joined_available_of_notMem hxT]
    · rw [mem_joined_available hd hs hne hxT]
  · rcases joined_cases hd hs hne hx with ⟨hxD, hxT⟩ | hxT
    · rw [mem_joined_available_of_notMem hxT] at hn
      have hsame := hc.links x hxT hn
      rw [hsame.next, hsame.prev]
      exact hD.available.clean x hxD hn
    · rw [mem_joined_available hd hs hne hxT] at hn
      exact hc.clean x hxT (by simpa using hn)

theorem Committed.reserved_joined (hc : Committed w w' s d D T) (hd : HiveOk w h d D)
    (hs : HiveOk w other s T) (hne : s ≠ d) : ReservedPart w' d (joined w D T) := by
  have hD := hd.represents.lists
  have hS := hs.represents.lists
  obtain ⟨stamp, hdest⟩ := hc.destination
  refine ⟨?_, fun x hx hn => ?_⟩
  · rw [hdest, hc.reservedNext]
    exact hD.reserved.chain
  · rw [hc.reservedNext]
    rcases joined_cases hd hs hne hx with ⟨hxD, -⟩ | hxT
    · exact hD.reserved.clean x hxD hn
    · exact hS.reserved.clean x (Shape.mem_blocks.mpr (.inl hxT)) (hS.notMem_reserved hxT)

theorem Committed.filled_joined (hc : Committed w w' s d D T) (hd : HiveOk w h d D)
    (hs : HiveOk w other s T) (hne : s ≠ d) : Filled w' (joined w D T) := by
  have hD := hd.represents.filled
  have hS := hs.represents.filled
  refine ⟨fun x hx => ?_, fun x hx => ?_, fun x hx => ?_, fun x hx => ?_⟩
  · rw [hc.block]
    rcases List.mem_append.mp hx with hx | hx
    · exact hD.active x hx
    · exact hS.active x hx
  · have hblocks : x ∈ (joined w D T).blocks := Shape.mem_blocks.mpr (.inl hx)
    rw [hc.block]
    rcases joined_cases hd hs hne hblocks with ⟨-, hxT⟩ | hxT
    · rw [mem_joined_available_of_notMem hxT]
      exact hD.available x ((List.mem_append.mp hx).resolve_right hxT)
    · rw [mem_joined_available hd hs hne hxT,
        hs.represents.lists.available.flag x (Shape.mem_blocks.mpr (.inl hxT))]
      exact hS.available x hxT
  · rw [hc.block]
    exact hD.reserved x hx
  · rw [hc.block]
    rcases joined_cases hd hs hne hx with ⟨hxD, -⟩ | hxT
    · exact hD.capacity x hxD
    · exact hS.capacity x (Shape.mem_blocks.mpr (.inl hxT))

theorem Committed.destination_ok (hc : Committed w w' s d D T) (hd : HiveOk w h d D)
    (hs : HiveOk w other s T) (hne : s ≠ d) (hT : T.active ≠ []) :
    HiveOk w' h d (joined w D T) := by
  obtain ⟨stamp, hdest⟩ := hc.destination
  have howned : ∀ x ∈ (joined w D T).blocks, Owned w' d x := by
    intro x hx
    rcases joined_cases hd hs hne hx with ⟨hxD, hxT⟩ | hxT
    · have hown := hd.represents.lists.owned x hxD
      exact hc.owned hown (by rw [hc.blockControl, if_neg hxT, hown.control])
    · exact hc.owned (hs.represents.lists.owned x (Shape.mem_blocks.mpr (.inl hxT)))
        (by rw [hc.blockControl, if_pos hxT])
  refine ⟨⟨⟨hc.active_joined hd hs hne hT, hc.available_joined hd hs hne, hc.reserved_joined hd hs hne,
    joined_blocks_nodup hd hs hne, howned⟩, hc.filled_joined hd hs hne, ?_, ?_⟩, rfl, ?_, ?_, ?_⟩
  · have hsame : w'.totalSize (D.active ++ T.active) = w.totalSize (D.active ++ T.active) :=
      totalSize_congr fun _ _ => by rw [hc.block]
    rw [hdest]
    simp only [joined]
    rw [hsame, totalSize_append, hd.represents.size, hs.represents.size]
  · have hsame : w'.totalCapacity (joined w D T).blocks = w.totalCapacity (joined w D T).blocks :=
      totalCapacity_congr fun _ _ => by rw [hc.block]
    have hsum := hd.represents.capacity
    simp only [Shape.blocks, hd.settled, List.append_nil, totalCapacity_append] at hsum
    rw [hsame, hdest]
    simp only [joined, Shape.blocks, List.append_nil, totalCapacity_append]
    omega
  · rw [hdest]
    exact hd.owner
  · rw [hc.nextControl]
    exact hd.known
  · rw [hc.heap]
    exact hd.heap

theorem Committed.loc (hc : Committed w w' s d D T) (hd : HiveOk w h d D) (hs : HiveOk w other s T) :
    Local {s, d} w w' := by
  refine ⟨fun x _ hx => ?_, fun k _ hk => ?_, fun k _ _ => by rw [hc.heap], hc.nextBlock.ge,
    hc.nextControl.ge⟩
  · have hxs : x ∉ T.blocks := fun hm => hx (.inl (hs.represents.lists.mem_owned hm))
    have hxd : x ∉ D.blocks := fun hm => hx (.inr (hd.represents.lists.mem_owned hm))
    have hxT : x ∉ T.active := fun hm => hxs (Shape.mem_blocks.mpr (.inl hm))
    have hxD : x ∉ D.active := fun hm => hxd (Shape.mem_blocks.mpr (.inl hm))
    refine ⟨by rw [hc.block], by rw [hc.blockControl, if_neg hxT], hc.orderOut x hxT,
      by rw [hc.active], by rw [hc.inAvailable], ?_, ?_, by rw [hc.reservedNext], by rw [hc.heap],
      by rw [hc.heap], by rw [hc.heap]⟩
    · rw [hc.activeLinks]
      exact spliceJoin_same hd.represents.lists.active hs.represents.lists.active (by simp [hxT, hxD])
    · exact hc.links x hxT fun hm => hxD (hd.represents.lists.available.sub x hm)
  · simp only [Set.mem_insert_iff, Set.mem_singleton_iff, not_or] at hk
    exact hc.control k hk.1 hk.2

/-- The check of `splice` looks at every block of the list. -/
theorem spliceCheck_eq {fuel total : ℕ} {limits : Limits} {start : Option BlockId}
    (hl : Chain w.activeLinks.next start l) (hf : l.length ≤ fuel) :
    spliceCheck w limits fuel start total =
      if ∀ b ∈ l, within limits (w.block b).capacity then some (total + w.totalCapacity l)
      else none := by
  induction l generalizing start fuel total with
  | nil =>
    rw [show start = none from hl]
    cases fuel <;> simp [spliceCheck, totalCapacity]
  | cons b l ih =>
    obtain ⟨rfl, hl⟩ := hl
    cases fuel with
    | zero => simp at hf
    | succ k =>
      rw [spliceCheck]
      split
      · next hb =>
        rw [ih hl (by simpa using hf)]
        simp [totalCapacity, Nat.add_assoc, hb]
      · next hb => simp [hb]

theorem spliceCheck_some {fuel n : ℕ} {limits : Limits} {start : Option BlockId}
    (hl : Chain w.activeLinks.next start l) (hf : l.length ≤ fuel)
    (hn : spliceCheck w limits fuel start 0 = some n) :
    n = w.totalCapacity l ∧ ∀ b ∈ l, within limits (w.block b).capacity := by
  rw [spliceCheck_eq hl hf] at hn
  split at hn
  · next hall =>
    cases hn
    exact ⟨Nat.zero_add _, hall⟩
  · exact absurd hn (by simp)

/-- The hive `h` has taken over the elements of `other`. -/
structure Absorbed (w w' : World α) (h other : HiveId) : Prop where
  inv : Inv w'
  left : w'.elements h = w.elements h ++ w.elements other
  right : w'.elements other = []
  elements : ∀ x, x ≠ h → x ≠ other → w'.elements x = w.elements x
  container : ∀ x, x ≠ h → x ≠ other → w'.container x = w.container x
  limits : ∀ x, (w'.container x).limits = (w.container x).limits

theorem touchEnd_limits (x : HiveId) :
    ((w.touchEnd h).container x).limits = (w.container x).limits := by
  by_cases hx : x = h
  · simp [touchEnd, modifyContainer, hx]
  · simp [touchEnd, modifyContainer, hx]

theorem Absorbed.touchEnds {u : World α} (ha : Absorbed w u h other) :
    Absorbed w ((u.touchEnd h).touchEnd other) h other := by
  have h₁ : Unchanged u (u.touchEnd h) h := touchEnd_unchanged ha.inv
  have h₂ : Unchanged (u.touchEnd h) ((u.touchEnd h).touchEnd other) other :=
    touchEnd_unchanged h₁.touches.inv
  have hsame : ∀ x, ((u.touchEnd h).touchEnd other).elements x = u.elements x := fun x =>
    (h₂.all x).trans (h₁.all x)
  refine ⟨h₂.touches.inv, (hsame h).trans ha.left, (hsame other).trans ha.right,
    fun x hx hx' => (hsame x).trans (ha.elements x hx hx'), fun x hx hx' => ?_, fun x => ?_⟩
  · rw [h₂.touches.container x hx', h₁.touches.container x hx, ha.container x hx hx']
  · rw [touchEnd_limits, touchEnd_limits, ha.limits]

theorem migrate_container (hne : h ≠ other) (x : HiveId) :
    (((w.modifyContainer h ({ · with control := some s })).modifyContainer other
      ({ · with control := none })).modifyControl s ({ · with owner := h })).container x =
      if x = other then { w.container other with control := none }
      else if x = h then { w.container h with control := some s } else w.container x := by
  by_cases hx : x = other
  · simp [modifyControl, modifyContainer, hx, Ne.symm hne]
  · by_cases hx' : x = h
    · simp [modifyControl, modifyContainer, hx', hne]
    · simp [modifyControl, modifyContainer, hx, hx']

/-- A control without reserved blocks migrates as a whole. -/
theorem migrate_absorbed (hi : Inv w) (hne : h ≠ other) (hh : (w.container h).control = none)
    (hs : (w.container other).control = some s) :
    Absorbed w (((w.modifyContainer h ({ · with control := some s })).modifyContainer other
      ({ · with control := none })).modifyControl s ({ · with owner := h })) h other := by
  obtain ⟨T, hT⟩ := hi other s hs
  have hsame : SameStore w (((w.modifyContainer h ({ · with control := some s })).modifyContainer other
      ({ · with control := none })).modifyControl s ({ · with owner := h })) :=
    ((sameStore_modifyContainer _).trans (sameStore_modifyContainer _)).trans
      (sameStore_setOwner (some s))
  have howner : ∀ k, ((((w.modifyContainer h ({ · with control := some s })).modifyContainer other
      ({ · with control := none })).modifyControl s ({ · with owner := h })).control k).owner =
      if s = k then h else (w.control k).owner := by
    intro k
    by_cases hk : k = s
    · simp [hk]
    · simp [modifyControl, modifyContainer, hk, Ne.symm hk]
  have hcont := fun x => migrate_container (w := w) (s := s) hne x
  generalize ((w.modifyContainer h ({ · with control := some s })).modifyContainer other
    ({ · with control := none })).modifyControl s ({ · with owner := h }) = w' at hsame howner hcont ⊢
  have hleft : (w'.container h).control = some s := by
    rw [hcont, if_neg hne, if_pos rfl]
  have hright : (w'.container other).control = none := by
    rw [hcont, if_pos rfl]
  have hrest : ∀ x, x ≠ h → x ≠ other → w'.container x = w.container x := by
    intro x hx hx'
    rw [hcont, if_neg hx', if_neg hx]
  refine ⟨fun x k hk => ?_, ?_, elements_of_none hright,
    fun x hx hx' => hsame.elements (by rw [hrest x hx hx']), hrest, fun x => ?_⟩
  · by_cases hx : x = h
    · subst hx
      rw [hleft] at hk
      cases hk
      exact ⟨T, hsame.hiveOk hT (by rw [howner, if_pos rfl])⟩
    · have hx' : x ≠ other := fun he => by
        rw [he, hright] at hk
        exact absurd hk (by simp)
      rw [hrest x hx hx'] at hk
      obtain ⟨U, hU⟩ := hi x k hk
      have hks : s ≠ k := fun he => hx' (hT.unique (he ▸ hU))
      exact ⟨U, hsame.hiveOk hU (by rw [howner, if_neg hks]; exact hU.owner)⟩
  · rw [elements_of_none hh, List.nil_append]
    exact hsame.elements (hleft.trans hs.symm)
  · rw [hcont]
    split_ifs with hx hx'
    · rw [hx]
    · rw [hx']
    · rfl

/-- The active blocks go over to the control of `h`. -/
theorem commit_absorbed {u : World α} (hi : Inv w) (hne : h ≠ other)
    (hs : (w.container other).control = some s) (hT : HiveOk w other s T) (hact : T.active ≠ [])
    (hc : HasControl w u h d D) :
    Absorbed w (attachNewControl (w.container h).control.isNone h d
      (spliceCommit u s d (w.totalCapacity T.active))) h other := by
  have hsd : s ≠ d := fun he => hne (hc.mine other (he ▸ hs)).symm
  have hTu : HiveOk u other s T := hT.of_local hc.silent.loc fun he => he
  have hblocks : ∀ x ∈ T.active, u.block x = w.block x := fun x hx => by
    have hown := hT.represents.lists.owned x (Shape.mem_blocks.mpr (.inl hx))
    exact (hc.silent.loc.block x hown.known fun he => he).block
  rw [← totalCapacity_congr hblocks]
  have hcom := spliceCommit_committed hc.ok hTu hsd hact
  have hdest := hcom.destination_ok hc.ok hTu hsd hact
  have hsrc := hcom.source_ok hc.ok hTu hsd
  have hloc := hcom.loc hc.ok hTu
  have hcontrol := attachNewControl_control (w := w) (h := h) (c := d)
    (spliceCommit u s d (u.totalCapacity T.active)) hc.container
    (hcom.container.trans hc.silent.container)
  obtain ⟨f, hf⟩ := attachNewControl_eq (h := h) (c := d) (w.container h).control.isNone
    (spliceCommit u s d (u.totalCapacity T.active))
  have hlimits : ∀ x, ((attachNewControl (w.container h).control.isNone h d
      (spliceCommit u s d (u.totalCapacity T.active))).container x).limits =
      ((spliceCommit u s d (u.totalCapacity T.active)).container x).limits := by
    intro x
    unfold attachNewControl
    split
    · by_cases hx : x = h
      · simp [modifyContainer, hx]
      · simp [modifyContainer, hx]
    · rfl
  rw [hf] at hcontrol hlimits ⊢
  generalize spliceCommit u s d (u.totalCapacity T.active) = v at hcom hdest hsrc hloc hcontrol hlimits ⊢
  have hstore : SameStore v (v.modifyContainer h f) := sameStore_modifyContainer f
  have hcont : v.container = w.container := hcom.container.trans hc.silent.container
  have hrest : ∀ x, x ≠ h → (v.modifyContainer h f).container x = w.container x := fun x hx => by
    rw [← hcont]
    exact Function.update_of_ne hx _ _
  have hright : ((v.modifyContainer h f).container other).control = some s := by
    rw [hrest other (Ne.symm hne)]
    exact hs
  -- a third hive has neither of the two controls
  have hother : ∀ x k, x ≠ h → x ≠ other → (w.container x).control = some k →
      k ∉ ({s, d} : Set ControlId) := by
    intro x k hx hx' hk hm
    rcases hm with rfl | rfl
    · obtain ⟨U, hU⟩ := hi x k hk
      exact hx' (hT.unique hU)
    · exact hx (hc.mine x hk)
  have hdest' := hstore.hiveOk hdest hdest.owner
  have hsrc' := hstore.hiveOk hsrc hsrc.owner
  refine ⟨fun x k hk => ?_, ?_, ?_, fun x hx hx' => ?_, fun x hx _ => hrest x hx, fun x => ?_⟩
  · by_cases hx : x = h
    · subst hx
      rw [hcontrol] at hk
      cases hk
      exact ⟨_, hdest'⟩
    · by_cases hx' : x = other
      · subst hx'
        rw [hright] at hk
        cases hk
        exact ⟨_, hsrc'⟩
      · rw [hrest x hx] at hk
        obtain ⟨U, hU⟩ := hi x k hk
        have hU' := (hU.of_local hc.silent.loc fun he => he).of_local hloc (hother x k hx hx' hk)
        exact ⟨U, hstore.hiveOk hU' hU'.owner⟩
  · have hsame : (v.modifyContainer h f).elementsOf (D.active ++ T.active) =
        u.elementsOf (D.active ++ T.active) := elementsOf_congr fun x _ => by
      rw [hstore.block, hcom.block]
    rw [hdest'.elements hcontrol, hT.elements hs, ← hc.elements]
    simp only [joined]
    rw [hsame, elementsOf_append, elementsOf_congr hblocks]
  · rw [hsrc'.elements hright]
    rfl
  · have hsilent := hc.silent.elements hi x
    rw [hstore.elements (y := x) (by rw [hrest x hx, hcont]), ← hsilent]
    cases hk : (w.container x).control with
    | none =>
      rw [elements_of_none (by rw [hcont]; exact hk),
        elements_of_none (by rw [hc.silent.container]; exact hk)]
    | some k =>
      obtain ⟨U, hU⟩ := hi x k hk
      exact (hU.of_local hc.silent.loc fun he => he).elements_of_local
        (by rw [hc.silent.container]; exact hk) hloc (hother x k hx hx' hk) (by rw [hcont]; exact hk)
  · rw [hlimits, hcont]

/-- `splice` moves all elements or none. -/
theorem splice_spec (hi : Inv w) (hne : h ≠ other) :
    Ends (splice env h other) w (fun _ w' => Absorbed w w' h other) (fun _ w' => Silent w w') := by
  have hempty : w.elements other = [] → Absorbed w ((w.touchEnd h).touchEnd other) h other := by
    intro he
    exact Absorbed.touchEnds ⟨hi, by rw [he, List.append_nil], he, fun _ _ _ => rfl, fun _ _ _ => rfl,
      fun _ => rfl⟩
  unfold splice
  rw [if_neg hne]
  simp only [ends_bind, ends_get]
  cases hs : (w.container other).control with
  | none =>
    simp only [ends_modify]
    exact hempty (elements_of_none hs)
  | some s =>
    obtain ⟨T, hT⟩ := hi other s hs
    have hL := hT.represents.lists
    simp only
    split
    · next hhead =>
      have hact : T.active = [] := by
        rw [hL.active.head] at hhead
        exact List.head?_eq_none_iff.mp hhead
      simp only [ends_modify]
      refine hempty ?_
      rw [hT.elements hs, hact]
      rfl
    · next hhead =>
      have hact : T.active ≠ [] := by
        rw [hL.active.head] at hhead
        exact fun he => hhead (by rw [he]; rfl)
      cases hcheck : spliceCheck w (w.container h).limits w.nextBlock (w.control s).activeHead 0 with
      | none =>
        simp only [ends_throw]
        exact .refl
      | some n =>
        obtain ⟨rfl, -⟩ := spliceCheck_some hL.active_chain hL.active_length_le hcheck
        simp only
        split
        · next hc =>
          simp only [ends_modify]
          exact (migrate_absorbed hi hne hc.1 hs).touchEnds
        · simp only [ends_bind, ends_modify]
          refine (controlOrNew_spec hi).mono ?_ fun _ _ hs => hs
          rintro d u ⟨D, hc⟩
          exact (commit_absorbed hi hne hs hT hact hc).touchEnds

end CCForge.Hive
