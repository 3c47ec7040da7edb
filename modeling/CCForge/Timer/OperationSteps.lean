import CCForge.Lib.Updates
import CCForge.Timer.OperationInvariants

/-!
# Every step of the timer operations keeps the invariant
-/

namespace CCForge.Timer.Operations

variable {s s' : State} {t : ThreadId} {op : OpId} {f : Frame} {rest : List Frame}

theorem framesOf_pair (hf : f.op = op) {g : Frame} (hg : g.op = op) {op' : OpId} (hne : op' ≠ op) :
    framesOf op' (g :: rest) = framesOf op' (f :: rest) := by
  rw [framesOf_cons_other (by rw [hg]; exact hne.symm), framesOf_cons_other (by rw [hf]; exact hne.symm)]

/-! ## Starting -/

theorem inv_begin (h : Inv s) (hf : foreign t (s.stack t) = true) (hs : op ∉ s.started)
    (hd : op ∉ s.destroying) {g : Frame} {hasItem : Bool}
    (hg : (∃ item : Item, item.id = op ∧ g = .enqueue item ∧ hasItem = true) ∨
      g = .inlineStopped op hasItem) :
    Inv (({ s with started := s.started ++ [op] }.setOp op
      { s.ops op with inStart := true, item := hasItem }).setStack t (g :: s.stack t)) := by
  obtain ⟨o, d, hl⟩ := h.lives op
  have hgop : g.op = op := by
    rcases hg with ⟨item, hi, rfl, -⟩ | rfl
    · exact hi
    · rfl
  have hgd : g.delivers = true := by
    rcases hg with ⟨item, -, rfl, -⟩ | rfl <;> rfl
  have hgu : g.unaccounted = false := by
    rcases hg with ⟨item, -, rfl, -⟩ | rfl <;> rfl
  refine h.step op ?_ ⟨some (t, g), d, ?_⟩ ?_
  · intro op' hne
    refine view_other (t := t) rfl ?_ (Function.update_of_ne hne _ _) Iff.rfl
      (mem_append_of_ne hne) Iff.rfl Iff.rfl Iff.rfl Iff.rfl Iff.rfl
    rw [framesOf_cons_other (by rw [hgop]; exact hne.symm)]
  · have hstart := hl.start (t := t) (f := g) hasItem hs hd hgd ?_
    · have hv : (({ s with started := s.started ++ [op] }.setOp op
          { s.ops op with inStart := true, item := hasItem }).setStack t (g :: s.stack t)).view op =
          { s.view op with
            stack := Function.update (s.view op).stack t (g :: (s.view op).stack t)
            op := { (s.view op).op with inStart := true, item := hasItem }
            started := True } := by
        refine View.ext ?_ (Function.update_self _ _ _) rfl (by simp [State.view]) rfl rfl rfl rfl rfl
        exact (framesOf_update _ _ _).trans (by rw [framesOf_cons_self hgop]; rfl)
      rw [hv]
      exact hstart
    · intro hq hdisc hop
      rcases hg with ⟨item, -, rfl, rfl⟩ | rfl
      · exact ⟨trivial, hq, hdisc, rfl, by rw [hop], by rw [hop], rfl⟩
      · exact ⟨trivial, hq, hdisc, rfl, by rw [hop], by rw [hop], rfl⟩
  · refine h.books.restack (t := t) rfl ?_ ?_ rfl rfl rfl rfl rfl
      (fun x hx => List.mem_append_left _ hx) ?_ h.books.once
    · exact h.books.foreign hf
    · exact inHand_cons_of_accounted hgu
    · intro x hx hxin
      have hne : x ≠ op := fun he => hs (he ▸ hx)
      simpa [Function.update_of_ne hne] using hxin

theorem inv_start (h : Inv s) (hf : foreign t (s.stack t) = true) {item : Item}
    (hs : item.id ∉ s.started) (hd : item.id ∉ s.destroying) (outcome : Start) :
    Inv (s.start t item outcome) := by
  cases outcome with
  | noItem =>
    obtain ⟨o, d, hl⟩ := h.lives item.id
    have hop : s.ops item.id = {} := (hl.unstarted hs).2.2.2
    have hx : ({ s.ops item.id with inStart := true } : Op) =
        { s.ops item.id with inStart := true, item := false } := by rw [hop]
    have hi := inv_begin (g := .inlineStopped item.id false) h hf hs hd (.inr rfl)
    simpa only [State.start, hx] using hi
  | failed => exact inv_begin h hf hs hd (.inr rfl)
  | ready => exact inv_begin h hf hs hd (.inl ⟨item, rfl, rfl, rfl⟩)

/-! ## Delivering -/

/-- The delivery of `op` goes on, without a change behind the mutex. -/
theorem inv_moves (h : Inv s) (new : List Frame) (x : Op) (completed : List (OpId × Signal))
    (o' : Option (ThreadId × Frame)) (htop : s.stack t = f :: rest) (hfop : f.op = op)
    (hfd : f.delivers = true) (hnew : new = [] ∨ ∃ g, new = [g] ∧ g.op = op)
    (hnd : new.filter Frame.destructs = [])
    (ho : (o' = none ∧ new.filter Frame.delivers = []) ∨
      ∃ g, o' = some (t, g) ∧ new.filter Frame.delivers = [g])
    (hu : inHand (new ++ rest) = inHand (f :: rest))
    (hfit : Fits (s.view op) (some (t, f)) → ¬(s.view op).queued → Fits { s.view op with
      stack := Function.update (s.view op).stack t (new ++ framesOf op rest), op := x
      completed := op ∈ completed.map Prod.fst } o')
    (hitem : x.item = (s.ops op).item) (hdone : (s.ops op).done = true → x.done = true)
    (hin : (s.ops op).inStart = false → x.inStart = false)
    (hclaims : ((s.ops op).done = true ↔ op ∈ s.completed.map Prod.fst ∨ op ∈ s.abandoned) →
      (x.done = true ↔ op ∈ completed.map Prod.fst ∨ op ∈ s.abandoned))
    (hexcl : op ∈ completed.map Prod.fst → op ∈ s.completed.map Prod.fst ∨ op ∉ s.abandoned)
    (hothers : ∀ op', op' ≠ op →
      (op' ∈ completed.map Prod.fst ↔ op' ∈ s.completed.map Prod.fst))
    (honce : (completed.map Prod.fst).Nodup) :
    Inv { (s.setOp op x).setStack t (new ++ rest) with completed := completed } := by
  obtain ⟨o, d, hl⟩ := h.lives op
  have hview : (s.view op).stack t = f :: framesOf op rest := by
    show framesOf op (s.stack t) = _
    rw [htop, framesOf_cons_self hfop]
  have howner : o = some (t, f) := hl.owner_of_mem (by rw [hview]; exact List.mem_cons_self) hfd
  subst howner
  have hnq := hl.owned.2.1
  have hframes : framesOf op (new ++ rest) = new ++ framesOf op rest := by
    rcases hnew with rfl | ⟨g, rfl, hg⟩
    · rfl
    · exact framesOf_cons_self hg
  refine h.step op ?_ ⟨o', d, ?_⟩ ?_
  · intro op' hne
    refine view_other (t := t) rfl ?_ (Function.update_of_ne hne _ _) Iff.rfl Iff.rfl Iff.rfl
      (hothers op' hne) Iff.rfl Iff.rfl Iff.rfl
    rw [htop]
    rcases hnew with rfl | ⟨g, rfl, hg⟩
    · rw [framesOf_cons_other (by rw [hfop]; exact hne.symm)]
      rfl
    · exact framesOf_pair hfop hg hne
  · have hv : ({ (s.setOp op x).setStack t (new ++ rest) with completed := completed } :
        State).view op =
        { s.view op with
          stack := Function.update (s.view op).stack t (new ++ framesOf op rest), op := x
          completed := op ∈ completed.map Prod.fst } := by
      refine View.ext ?_ (Function.update_self _ _ _) rfl rfl rfl rfl rfl rfl rfl
      exact (framesOf_update _ _ _).trans (by rw [hframes]; rfl)
    rw [hv]
    refine hl.moves new (q := (s.view op).queued) hview hfd hnd ho (hfit hl.fits hnq) hitem hdone hin
      (hclaims hl.claims) ?_ ?_
    · intro hc
      rcases hexcl hc with hc | hc
      · exact hl.exclusive hc
      · exact hc
    · exact fun hq => absurd hq hnq
  · refine h.books.restack (t := t) rfl ?_ ?_ rfl rfl rfl rfl rfl (fun _ hy => hy) ?_ honce
    · rcases hnew with rfl | ⟨g, rfl, -⟩
      · exact h.books.top_tail htop
      · exact tail_of_cons h.books htop
    · rw [hu, htop]
    · intro y _ hyin
      by_cases hy : y = op
      · subst hy
        simpa using hin hyin
      · simpa [Function.update_of_ne hy] using hyin

theorem inv_complete (h : Inv s) (htop : s.stack t = f :: rest) {source : Source} (sig : Signal)
    (hf : (∃ b, f = .inlineStopped op b ∧ source = .inline b) ∨
      ∃ b, f = .deliver op b ∧ source = .worker) :
    Inv (s.complete t op source sig rest) := by
  have hfop : f.op = op := by
    rcases hf with ⟨b, rfl, -⟩ | ⟨b, rfl, -⟩ <;> rfl
  have hfd : f.delivers = true := by
    rcases hf with ⟨b, rfl, -⟩ | ⟨b, rfl, -⟩ <;> rfl
  have hhand : ∀ g : Frame, g = .completing op source ∨ g = .publish op source →
      inHand ([g] ++ rest) = inHand (f :: rest) := by
    rintro g (rfl | rfl) <;> rcases hf with ⟨b, rfl, rfl⟩ | ⟨b, rfl, rfl⟩ <;> rfl
  have hitem : Fits (s.view op) (some (t, f)) → (s.ops op).item = source.hasItem ∧
      (s.view op).started ∧ ¬(s.view op).discarded ∧ (s.ops op).delivered = false := by
    intro hfit
    rcases hf with ⟨b, rfl, rfl⟩ | ⟨b, rfl, rfl⟩
    · exact ⟨hfit.2.2.2.2.2.2, hfit.1, hfit.2.2.1, hfit.2.2.2.2.2.1⟩
    · exact ⟨hfit.2.2.2.2.2.2.1, hfit.1, hfit.2.2.1, hfit.2.2.2.2.2.1⟩
  unfold State.complete
  dsimp only
  split_ifs with hdone
  · refine inv_moves h [.publish op source] _ s.completed (some (t, .publish op source)) htop hfop hfd
      (.inr ⟨_, rfl, rfl⟩) rfl (.inr ⟨_, rfl, rfl⟩)
      (hhand _ (.inr rfl)) ?_ rfl id (fun _ => rfl) id (fun hc => .inl hc) (fun _ _ => Iff.rfl)
      h.books.once
    intro hfit hnq
    obtain ⟨h₁, h₂, h₃, h₄⟩ := hitem hfit
    exact ⟨h₂, hnq, h₃, rfl, hdone, h₄, h₁, rfl⟩
  · have hdone' : (s.ops op).done = false := by simpa using hdone
    obtain ⟨o, d, hl⟩ := h.lives op
    have hnot : op ∉ s.completed.map Prod.fst ∧ op ∉ s.abandoned := by
      constructor
      · intro hc
        exact hdone (hl.claims.mpr (.inl hc))
      · intro ha
        exact hdone (hl.claims.mpr (.inr ha))
    have hmap : (s.completed ++ [(op, sig)]).map Prod.fst = s.completed.map Prod.fst ++ [op] := by
      simp
    refine inv_moves h [.completing op source] _ (s.completed ++ [(op, sig)])
      (some (t, .completing op source)) htop hfop hfd (.inr ⟨_, rfl, rfl⟩) rfl
      (.inr ⟨_, rfl, rfl⟩) (hhand _ (.inl rfl)) ?_ rfl (fun _ => rfl) (fun _ => rfl) ?_
      (fun _ => .inr hnot.2) ?_ ?_
    · intro hfit hnq
      obtain ⟨h₁, h₂, h₃, h₄⟩ := hitem hfit
      exact ⟨h₂, hnq, h₃, rfl, rfl, h₄, h₁, rfl⟩
    · intro _
      rw [hmap]
      simp
    · intro op' hne
      rw [hmap]
      exact mem_append_of_ne hne
    · rw [hmap]
      refine List.nodup_append.mpr ⟨h.books.once, List.nodup_singleton op, ?_⟩
      intro a ha b hb hab
      rw [List.mem_singleton.mp hb] at hab
      exact hnot.1 (hab ▸ ha)

theorem setOp_self (s : State) (op : OpId) : s.setOp op (s.ops op) = s := by
  simp [Function.update_eq_self]

theorem inv_ret (h : Inv s) {source : Source} (htop : s.stack t = .completing op source :: rest) :
    Inv (s.setStack t (.publish op source :: rest)) := by
  have hi := inv_moves h [.publish op source] (s.ops op) s.completed
    (some (t, .publish op source)) htop (show (Frame.completing op source).op = op from rfl) rfl
    (.inr ⟨_, rfl, rfl⟩) rfl (.inr ⟨_, rfl, rfl⟩) ?_ ?_ rfl id id id (fun hc => .inl hc)
    (fun _ _ => Iff.rfl) h.books.once
  · rwa [setOp_self] at hi
  · cases source <;> rfl
  · exact fun hfit _ => hfit

theorem inv_publish (h : Inv s) {source : Source} (htop : s.stack t = .publish op source :: rest) :
    Inv ((if source.hasItem then s.setOp op { s.ops op with delivered := true } else s).setStack t
      (if source = .worker then .account op :: rest else rest)) := by
  obtain ⟨x, hx, hitem, hin, hdone, hdel⟩ : ∃ x : Op,
      (if source.hasItem then s.setOp op { s.ops op with delivered := true } else s) = s.setOp op x ∧
      x.item = (s.ops op).item ∧ x.inStart = (s.ops op).inStart ∧ x.done = (s.ops op).done ∧
      (source.hasItem = true → x.delivered = true) := by
    cases hi : source.hasItem with
    | true => exact ⟨_, rfl, rfl, rfl, rfl, fun _ => rfl⟩
    | false => exact ⟨s.ops op, (setOp_self s op).symm, rfl, rfl, rfl, nofun⟩
  have hnew : (if source = .worker then Frame.account op :: rest else rest) =
      (if source = .worker then [Frame.account op] else []) ++ rest := by
    split_ifs <;> rfl
  rw [hx, hnew]
  refine inv_moves h _ x s.completed none htop rfl rfl ?_ ?_ (.inl ⟨rfl, ?_⟩) ?_ ?_
    hitem (fun hd => by rw [hdone]; exact hd) (fun hi => by rw [hin]; exact hi) ?_
    (fun hc => .inl hc) (fun _ _ => Iff.rfl) h.books.once
  · split_ifs
    · exact .inr ⟨_, rfl, rfl⟩
    · exact .inl rfl
  · split_ifs <;> rfl
  · split_ifs <;> rfl
  · cases source <;> rfl
  · intro hfit hnq
    refine ⟨by rw [hin]; exact hfit.2.2.2.1, .inr (.inr ⟨hfit.1, hnq, ?_, ?_⟩)⟩
    · rw [hdone]
      exact hfit.2.2.2.2.1
    · intro hi
      left
      apply hdel
      rw [← hfit.2.2.2.2.2.2.1, ← hi]
      exact hitem.symm
  · intro hc
    rw [hdone]
    exact hc

/-! ## The queue -/

theorem view_stack (hstack : s'.stack = Function.update s.stack t rest) :
    (s'.view op).stack = Function.update (s.view op).stack t (framesOf op rest) := by
  show (fun u => framesOf op (s'.stack u)) = _
  rw [hstack, framesOf_update]
  rfl

theorem view_top (htop : s.stack t = f :: rest) (hop : f.op = op) :
    (s.view op).stack t = f :: framesOf op rest := by
  show framesOf op (s.stack t) = _
  rw [htop, framesOf_cons_self hop]

theorem framesOf_pop (htop : s.stack t = f :: rest) {op' : OpId} (hne : op' ≠ f.op) :
    framesOf op' rest = framesOf op' (s.stack t) := by
  rw [htop, framesOf_cons_other hne.symm]

theorem inHand_update (u : ThreadId) {new : List Frame} :
    inHand (Function.update s.stack t new u) = if u = t then inHand new else inHand (s.stack u) := by
  split_ifs with hu
  · subst hu
    rw [Function.update_self]
  · rw [Function.update_of_ne hu]

/-- A frame without an item leaves what its thread has in hand. -/
theorem inHand_pop (htop : s.stack t = f :: rest) (hf : inHand rest = inHand (f :: rest)) (u : ThreadId) :
    inHand (Function.update s.stack t rest u) = inHand (s.stack u) := by
  rw [inHand_update]
  split_ifs with hu
  · rw [hu, htop, hf]
  · rfl

theorem nested_pop (h : Books s) (htop : s.stack t = f :: rest) (u : ThreadId) :
    ∀ g ∈ (Function.update s.stack t rest u).tail, g.isCompleting = true := by
  intro g hg
  by_cases hu : u = t
  · subst hu
    rw [Function.update_self] at hg
    exact h.top_tail htop g hg
  · rw [Function.update_of_ne hu] at hg
    exact h.nested u g hg

theorem inv_accept (h : Inv s) {item : Item} (htop : s.stack t = .enqueue item :: rest)
    (hstop : s.shared.stop = false) :
    Inv { (s.setOp item.id { s.ops item.id with inStart := false }).setStack t rest with
      shared := { s.shared with
        items := s.shared.items ++ [item], pending := s.shared.pending + 1 }
      accepted := s.accepted ++ [item.id] } := by
  obtain ⟨o, d, hl⟩ := h.lives item.id
  have hview := view_top htop (show (Frame.enqueue item).op = item.id from rfl)
  have howner := hl.owner_of_mem (by rw [hview]; exact List.mem_cons_self) rfl
  subst howner
  have hfit := hl.fits
  -- An accepted operation is past its start, and this one is inside it.
  have hnotacc : item.id ∉ s.accepted := by
    intro hm
    have hin := (h.books.handed _ hm).2
    have hin' : (s.ops item.id).inStart = true := hfit.2.2.2.1
    rw [hin] at hin'
    cases hin'
  have hnest := nested_pop h.books htop
  have hhand := inHand_pop htop rfl
  refine h.step item.id ?_ ⟨none, d, ?_⟩ ?_
  · intro op' hne
    refine view_other (t := t) rfl (framesOf_pop htop hne) (Function.update_of_ne hne _ _) ?_ Iff.rfl
      Iff.rfl Iff.rfl Iff.rfl Iff.rfl Iff.rfl
    simp [hne]
  -- The operation itself: its frame is gone and its item is in the queue.
  · have hmoves := hl.moves [] (x := { s.ops item.id with inStart := false }) (q := True)
      (c := (s.view item.id).completed) hview rfl rfl (.inl ⟨rfl, rfl⟩) ?_ rfl id (fun _ => rfl)
      hl.claims hl.exclusive (fun _ => ⟨hfit.2.2.2.2.1, hfit.1⟩)
    · have hv : ({ (s.setOp item.id { s.ops item.id with inStart := false }).setStack t rest with
          shared := { s.shared with
            items := s.shared.items ++ [item], pending := s.shared.pending + 1 }
          accepted := s.accepted ++ [item.id] } : State).view item.id =
          { s.view item.id with
            stack := Function.update (s.view item.id).stack t ([] ++ framesOf item.id rest)
            op := { s.ops item.id with inStart := false }, queued := True
            completed := (s.view item.id).completed } :=
        View.ext (view_stack rfl) (Function.update_self _ _ _) (by simp [State.view]) rfl rfl rfl rfl
          rfl rfl
      rw [hv]
      exact hmoves
    · refine ⟨rfl, .inr (.inl ⟨hfit.1, trivial, ?_, hfit.2.2.2.2.2.2, hfit.2.2.2.2.2.1, hfit.2.2.1⟩)⟩
      intro hc
      have hn := hl.claims.mpr (.inl hc)
      rw [hfit.2.2.2.2.1] at hn
      cases hn
  · refine ⟨hnest, ?_, ?_, ?_, ?_, ?_, ?_, h.books.once, ?_⟩
    · rw [List.map_append]
      refine List.nodup_append.mpr ⟨h.books.ids, List.nodup_singleton _, ?_⟩
      intro a ha b hb hab
      rw [List.map_singleton, List.mem_singleton] at hb
      exact hfit.2.1 (by rw [← hb, ← hab]; exact ha)
    · intro u hu
      simp only [State.setStack, State.setOp, hhand] at hu
      exact h.books.onWorker u hu
    · simp only [State.setStack, State.setOp, hhand, List.length_append, List.length_singleton]
      rw [h.books.pending]
      omega
    · simp only [State.setStack, State.setOp, hhand, List.map_append, List.map_singleton]
      rw [← Multiset.coe_add s.accepted, h.books.line, ← Multiset.coe_add (s.shared.items.map Item.id)]
      abel
    · refine List.nodup_append.mpr ⟨h.books.accepted, List.nodup_singleton _, ?_⟩
      intro a ha b hb hab
      rw [List.mem_singleton.mp hb] at hab
      exact hnotacc (hab ▸ ha)
    · intro x hx
      by_cases hxi : x = item.id
      · subst hxi
        exact ⟨hfit.1, by simp⟩
      · rcases List.mem_append.mp hx with hx | hx
        · obtain ⟨h₁, h₂⟩ := h.books.handed x hx
          exact ⟨h₁, by simpa [Function.update_of_ne hxi] using h₂⟩
        · exact absurd (List.mem_singleton.mp hx) hxi
    · intro hex
      have hs := (h.books.exited hex).1
      rw [hstop] at hs
      cases hs

theorem inv_refuse (h : Inv s) {item : Item} (htop : s.stack t = .enqueue item :: rest) :
    Inv (s.setStack t (.inlineStopped item.id true :: rest)) := by
  have hi := inv_moves h [.inlineStopped item.id true] (s.ops item.id) s.completed
    (some (t, .inlineStopped item.id true)) htop (show (Frame.enqueue item).op = item.id from rfl) rfl
    (.inr ⟨_, rfl, rfl⟩) rfl (.inr ⟨_, rfl, rfl⟩) rfl ?_ rfl id id id (fun hc => .inl hc)
    (fun _ _ => Iff.rfl) h.books.once
  · rwa [setOp_self] at hi
  · exact fun hfit _ => hfit

theorem inv_account (h : Inv s) (htop : s.stack t = .account op :: rest) :
    Inv { s.setStack t rest with
      shared := s.shared.account, finished := s.finished ++ [op] } := by
  obtain ⟨o, d, hl⟩ := h.lives op
  have hview := view_top htop (show (Frame.account op).op = op from rfl)
  have hstack : inHand (s.stack t) = op :: inHand rest := by
    rw [htop]
    exact inHand_cons_of_unaccounted rfl
  have ht : t = worker := h.books.onWorker t (by rw [hstack]; nofun)
  subst ht
  have hhand : ∀ u, inHand (Function.update s.stack worker rest u) ≠ [] → inHand (s.stack u) ≠ [] := by
    intro u hu
    rw [inHand_update] at hu
    split_ifs at hu with huw
    · rw [huw, hstack]
      nofun
    · exact hu
  refine h.step op ?_ ⟨o, d, ?_⟩ ?_
  · intro op' hne
    exact view_other (t := worker) rfl (framesOf_pop htop hne) rfl Iff.rfl Iff.rfl Iff.rfl Iff.rfl
      Iff.rfl Iff.rfl Iff.rfl
  · have hv : ({ s.setStack worker rest with
        shared := s.shared.account, finished := s.finished ++ [op] } : State).view op =
        { s.view op with stack := Function.update (s.view op).stack worker (framesOf op rest) } :=
      View.ext (view_stack rfl) rfl rfl rfl rfl rfl rfl rfl rfl
    rw [hv]
    exact hl.accounts hview
  · refine ⟨nested_pop h.books htop, h.books.ids, fun u hu => h.books.onWorker u (hhand u hu), ?_, ?_,
      h.books.accepted, h.books.handed, h.books.once, h.books.exited⟩
    · simp only [State.setStack, Shared.account, inHand_update, if_true]
      rw [h.books.pending, hstack]
      simp
    · simp only [State.setStack, Shared.account, inHand_update, if_true]
      rw [h.books.line, hstack, ← Multiset.coe_add s.finished, ← Multiset.cons_coe,
        ← Multiset.singleton_add]
      simp only [Multiset.coe_singleton]
      abel

theorem inv_iterate (h : Inv s) (hw : s.stack worker = []) (hex : s.exited = false) (now : ℤ) :
    Inv (s.iterate now) := by
  have hkeep : ∀ b, (b = true → s.shared.stop = true ∧ s.shared.items = []) →
      Inv { s with clock := now, exited := b } := by
    intro b hb
    exact ⟨h.lives, ⟨h.books.nested, h.books.ids, h.books.onWorker, h.books.pending, h.books.line,
      h.books.accepted, h.books.handed, h.books.once, hb⟩⟩
  unfold State.iterate
  cases hp : s.shared.pick now with
  | exit => exact hkeep true fun _ => Shared.pick_exit hp
  | wait =>
    have hi := hkeep s.exited h.books.exited
    exact hi
  | take item completeStopped items =>
    obtain ⟨l₁, l₂, hitems, rfl, -⟩ := Shared.pick_take hp
    obtain ⟨o, d, hl⟩ := h.lives item.id
    have hids := h.books.ids
    rw [hitems, List.map_append, List.map_cons] at hids
    have hmiddle := List.nodup_middle.mp hids
    obtain ⟨hnot, hrest⟩ := List.nodup_cons.mp hmiddle
    rw [← List.map_append] at hnot hrest
    have hq : (s.view item.id).queued := by
      show item.id ∈ s.shared.items.map Item.id
      rw [hitems]
      simp
    refine h.step item.id ?_ ⟨some (worker, .deliver item.id completeStopped), d, ?_⟩ ?_
    · intro op' hne
      refine view_other (t := worker) rfl ?_ rfl ?_ Iff.rfl Iff.rfl Iff.rfl Iff.rfl Iff.rfl Iff.rfl
      · rw [hw]
        simp [framesOf, Frame.op, hne.symm]
      · rw [hitems]
        simp [hne]
    · have hv : ({ s.setStack worker [.deliver item.id completeStopped] with
          clock := now, shared := { s.shared with items := l₁ ++ l₂ } } : State).view item.id =
          { s.view item.id with
            stack := Function.update (s.view item.id).stack worker
              [.deliver item.id completeStopped]
            queued := False } := by
        refine View.ext ?_ rfl (by simpa [State.view] using hnot) rfl rfl rfl rfl rfl rfl
        exact (view_stack rfl).trans (by simp [framesOf, Frame.op])
      rw [hv]
      refine hl.take hq ?_
      show framesOf item.id (s.stack worker) = []
      rw [hw]
      rfl
    · refine ⟨?_, hrest, ?_, ?_, ?_, h.books.accepted, h.books.handed, h.books.once, ?_⟩
      · intro u g hg
        by_cases hu : u = worker
        · subst hu
          simp at hg
        · simp only [State.setStack, Function.update_of_ne hu] at hg
          exact h.books.nested u g hg
      · intro u hu
        by_cases huw : u = worker
        · exact huw
        · simp only [State.setStack, Function.update_of_ne huw] at hu
          exact h.books.onWorker u hu
      · have hpend := h.books.pending
        rw [hw, hitems] at hpend
        simp only [State.setStack, Function.update_self]
        rw [hpend, inHand_cons_of_unaccounted rfl]
        simp [inHand]
        omega
      · have hline := h.books.line
        rw [hw, hitems] at hline
        simp only [State.setStack, Function.update_self]
        rw [hline, inHand_cons_of_unaccounted rfl, List.map_append, List.map_cons, List.map_append,
          ← Multiset.coe_add, ← Multiset.coe_add, ← Multiset.cons_coe, ← Multiset.singleton_add,
          ← Multiset.cons_coe, ← Multiset.singleton_add]
        simp only [inHand, List.filter_nil, List.map_nil, Frame.op]
        abel
      · intro hx
        rw [show s.exited = true from hx] at hex
        cases hex

/-! ## The destructor -/

theorem inside_eq_false_iff {frames : List Frame} :
    inside op frames = false ↔ ∀ g ∈ framesOf op frames, g.isCompleting = false := by
  rw [inside, List.any_eq_false]
  constructor
  · intro h g hg
    obtain ⟨hm, hop⟩ := List.mem_filter.mp hg
    have hn := h g hm
    cases g with
    | completing op' source =>
      have he : op' = op := of_decide_eq_true hop
      simp [Frame.completes, he] at hn
    | _ => rfl
  · intro h g hg
    cases g with
    | completing op' source =>
      by_cases he : op' = op
      · have hn := h (.completing op' source) (List.mem_filter.mpr ⟨hg, by simp [Frame.op, he]⟩)
        cases hn
      · simp [Frame.completes, he]
    | _ => simp [Frame.completes]

theorem mem_outside {b : Bool} {l : List (OpId × Bool)} :
    (op, false) ∈ l ++ [(op, b)] ↔ (op, false) ∈ l ∨ b = false := by
  rw [List.mem_append, List.mem_singleton, Prod.mk.injEq]
  simp [eq_comm]

/-- A step of the destructor of `op` that leaves the data behind the mutex alone. -/
theorem inv_destructor (h : Inv s) (new : List Frame) (x : Op) (destroying abandoned : List OpId)
    (destroyed : List (OpId × Bool)) (hn : ∀ g ∈ new.tail, g.isCompleting = true)
    (hu : inHand new = inHand (s.stack t)) (hin : x.inStart = (s.ops op).inStart)
    (hother : ∀ op', op' ≠ op → framesOf op' new = framesOf op' (s.stack t) ∧
      (op' ∈ abandoned ↔ op' ∈ s.abandoned) ∧ (op' ∈ destroying ↔ op' ∈ s.destroying) ∧
      ((op', false) ∈ destroyed ↔ (op', false) ∈ s.destroyed))
    (hop : ∃ o d, Lives { s.view op with
      stack := Function.update (s.view op).stack t (framesOf op new), op := x
      abandoned := op ∈ abandoned, destroying := op ∈ destroying
      outside := (op, false) ∈ destroyed } o d) :
    Inv { (s.setOp op x).setStack t new with
      destroying := destroying, abandoned := abandoned, destroyed := destroyed } := by
  refine h.step op ?_ ?_ ?_
  · intro op' hne
    obtain ⟨h₁, h₂, h₃, h₄⟩ := hother op' hne
    exact view_other (t := t) rfl h₁ (Function.update_of_ne hne _ _) Iff.rfl Iff.rfl Iff.rfl Iff.rfl
      h₂ h₃ h₄
  · obtain ⟨o, d, hl⟩ := hop
    refine ⟨o, d, ?_⟩
    have hv : ({ (s.setOp op x).setStack t new with
        destroying := destroying, abandoned := abandoned, destroyed := destroyed } : State).view op =
        { s.view op with
          stack := Function.update (s.view op).stack t (framesOf op new), op := x
          abandoned := op ∈ abandoned, destroying := op ∈ destroying
          outside := (op, false) ∈ destroyed } :=
      View.ext (view_stack rfl) (Function.update_self _ _ _) rfl rfl rfl rfl rfl rfl rfl
    rw [hv]
    exact hl
  · refine h.books.restack (t := t) rfl hn hu rfl rfl rfl rfl rfl (fun _ hy => hy) ?_ h.books.once
    intro y _ hyin
    by_cases hy : y = op
    · subst hy
      simpa [hin] using hyin
    · simpa [Function.update_of_ne hy] using hyin

theorem inv_destroy (h : Inv s) (hf : foreign t (s.stack t) = true) (hd : op ∉ s.destroying)
    (hin : (s.ops op).inStart = false) : Inv (s.destroy t op) := by
  obtain ⟨o, d, hl⟩ := h.lives op
  have hclean : ∀ g ∈ (s.view op).stack t, g.isCompleting = true :=
    fun g hg => h.books.foreign hf g (List.mem_filter.mp hg).1
  have hmem : (op ∈ s.destroying ++ [op]) = True := by simp
  have hothers : ∀ op', op' ≠ op → (op' ∈ s.destroying ++ [op] ↔ op' ∈ s.destroying) :=
    fun op' hne => mem_append_of_ne hne
  have hkeep : Function.update (s.view op).stack t (framesOf op (s.stack t)) = (s.view op).stack :=
    Function.update_eq_self t _
  -- the two ways to return at once
  have hreturn : ((s.ops op).item = true → o = none ∨ inside op (s.stack t) = true) →
      ((s.ops op).item = true → (s.ops op).done = true) →
      Inv ({ s with destroying := s.destroying ++ [op] }.returnDestroyed t op (s.stack t)) := by
    intro ho hdone
    have hi := inv_destructor (t := t) h (s.stack t) (s.ops op) (s.destroying ++ [op]) s.abandoned
      (s.destroyed ++ [(op, inside op (s.stack t))]) (h.books.nested t) rfl rfl
      (fun op' hne => ⟨rfl, Iff.rfl, hothers op' hne, ?_⟩) ⟨o, d, ?_⟩
    · rw [setOp_self] at hi
      exact hi
    · exact mem_append_of_ne (by simp [hne])
    · have hz := hl.returns (z := inside op (s.stack t) = false) hd hin ?_
      · rw [hkeep, hmem, mem_outside]
        exact hz
      · intro hz hi
        refine ⟨(ho hi).resolve_right (by simp [hz]), hdone hi⟩
  unfold State.destroy
  dsimp only
  split_ifs with hitem hdone ht
  · exact hreturn (fun hi => by rw [hitem] at hi; cases hi) (fun hi => by rw [hitem] at hi; cases hi)
  · refine hreturn (fun _ => ?_) fun _ => hdone
    obtain ⟨-, -, howner⟩ := hl.of_done hd hdone
    rcases howner with hn | ⟨u, op', source, hu, hct⟩
    · exact .inl hn
    · right
      have hut : u = t := by
        have hct' : (s.ops op).completingThread = some u := hct
        rw [ht] at hct'
        exact (Option.some.inj hct').symm
      subst hut
      by_contra hout
      have hnone := inside_eq_false_iff.mp (by simpa using hout)
      rcases hu with rfl | rfl
      · have hc := hnone _ hl.mem_of_owner
        cases hc
      · have hc := hclean _ hl.mem_of_owner
        cases hc
  · have hitem' : (s.ops op).item = true := by simpa using hitem
    have hi := inv_destructor (t := t) h (.await op :: s.stack t) (s.ops op) (s.destroying ++ [op])
      s.abandoned s.destroyed (h.books.foreign hf) rfl rfl
      (fun op' hne => ⟨framesOf_cons_other hne.symm, Iff.rfl, hothers op' hne, Iff.rfl⟩)
      ⟨o, some (t, .await op), ?_⟩
    · rw [setOp_self] at hi
      exact hi
    · rw [hmem, framesOf_cons_self (show (Frame.await op).op = op from rfl)]
      exact hl.parks hd hitem' hdone ht
  · have hitem' : (s.ops op).item = true := by simpa using hitem
    refine inv_destructor (t := t) h (.discard op :: s.stack t) { s.ops op with done := true }
      (s.destroying ++ [op]) (s.abandoned ++ [op]) s.destroyed (h.books.foreign hf) rfl rfl
      (fun op' hne => ⟨framesOf_cons_other hne.symm, mem_append_of_ne hne, hothers op' hne, Iff.rfl⟩)
      ⟨o, some (t, .discard op), ?_⟩
    have hab : (op ∈ s.abandoned ++ [op]) = True := by simp
    rw [hmem, hab, framesOf_cons_self (show (Frame.discard op).op = op from rfl)]
    have hfresh : (s.ops op).done = false := by simpa using hdone
    exact hl.abandons hd hitem' hfresh hin fun g hg _ => hclean g hg

theorem inv_miss (h : Inv s) (htop : s.stack t = .discard op :: rest)
    (hq : op ∉ s.shared.items.map Item.id) : Inv (s.setStack t (.await op :: rest)) := by
  obtain ⟨o, d, hl⟩ := h.lives op
  have hi := inv_destructor (t := t) h (.await op :: rest) (s.ops op) s.destroying s.abandoned
    s.destroyed (tail_of_cons h.books htop) (by rw [htop]; rfl) rfl
    (fun op' hne => ⟨?_, Iff.rfl, Iff.rfl, Iff.rfl⟩) ⟨o, some (t, .await op), ?_⟩
  · rwa [setOp_self] at hi
  · rw [htop]
    exact framesOf_pair (show (Frame.discard op).op = op from rfl)
      (show (Frame.await op).op = op from rfl) hne
  · rw [framesOf_cons_self (show (Frame.await op).op = op from rfl)]
    exact hl.misses (view_top htop rfl) hq

theorem inv_wake (h : Inv s) (htop : s.stack t = .await op :: rest)
    (hdel : (s.ops op).delivered = true) : Inv (s.returnDestroyed t op rest) := by
  obtain ⟨o, d, hl⟩ := h.lives op
  have hi := inv_destructor (t := t) h rest (s.ops op) s.destroying s.abandoned
    (s.destroyed ++ [(op, inside op rest)]) (h.books.top_tail htop) (by rw [htop]; rfl) rfl
    (fun op' hne => ⟨framesOf_pop htop hne, Iff.rfl, Iff.rfl, ?_⟩) ⟨none, none, ?_⟩
  · rw [setOp_self] at hi
    exact hi
  · exact mem_append_of_ne (by simp [hne])
  · rw [mem_outside]
    exact hl.wakes (view_top htop rfl) hdel

theorem inv_discard (h : Inv s) {item : Item} {l₁ l₂ : List Item}
    (htop : s.stack t = .discard op :: rest) (hitems : s.shared.items = l₁ ++ item :: l₂)
    (hid : item.id = op) :
    Inv { s.returnDestroyed t op rest with
      shared := { s.shared with items := l₁ ++ l₂, pending := s.shared.pending - 1 }
      discarded := s.discarded ++ [op] } := by
  obtain ⟨o, d, hl⟩ := h.lives op
  have hids := h.books.ids
  rw [hitems, List.map_append, List.map_cons] at hids
  obtain ⟨hnot, hnodup⟩ := List.nodup_cons.mp (List.nodup_middle.mp hids)
  rw [← List.map_append, hid] at hnot
  rw [← List.map_append] at hnodup
  have hhand := inHand_pop htop rfl
  have hnest := nested_pop h.books htop
  refine h.step op ?_ ⟨none, none, ?_⟩ ?_
  · intro op' hne
    refine view_other (t := t) rfl (framesOf_pop htop hne) rfl ?_ Iff.rfl (mem_append_of_ne hne)
      Iff.rfl Iff.rfl Iff.rfl (mem_append_of_ne (by simp [hne]))
    rw [hitems]
    simp [hid, hne]
  · have hv : ({ s.returnDestroyed t op rest with
        shared := { s.shared with items := l₁ ++ l₂, pending := s.shared.pending - 1 }
        discarded := s.discarded ++ [op] } : State).view op =
        { s.view op with
          stack := Function.update (s.view op).stack t (framesOf op rest)
          queued := False
          discarded := True
          outside := (s.view op).outside ∨ inside op rest = false } := by
      refine View.ext (view_stack rfl) rfl ?_ rfl ?_ rfl rfl rfl (propext mem_outside)
      · simpa [State.view] using hnot
      · simp [State.view]
    rw [hv]
    refine hl.discards (view_top htop rfl) ?_
    show op ∈ s.shared.items.map Item.id
    rw [hitems]
    simp [hid]
  · refine ⟨hnest, hnodup, ?_, ?_, ?_, h.books.accepted, h.books.handed, h.books.once, ?_⟩
    · intro u hu
      simp only [State.returnDestroyed, State.setStack, hhand] at hu
      exact h.books.onWorker u hu
    · simp only [State.returnDestroyed, State.setStack, hhand]
      rw [h.books.pending, hitems]
      simp only [List.length_append, List.length_cons]
      omega
    · simp only [State.returnDestroyed, State.setStack, hhand]
      rw [h.books.line, hitems, List.map_append, List.map_cons, List.map_append, hid,
        ← Multiset.coe_add, ← Multiset.coe_add, ← Multiset.coe_add s.discarded,
        ← Multiset.cons_coe, ← Multiset.singleton_add]
      simp only [Multiset.coe_singleton]
      abel
    · intro hex
      have hnil := (h.books.exited hex).2
      rw [hitems] at hnil
      simp at hnil

/-! ## Runs -/

theorem inv_advance (h : Inv s) {throws : Bool} (hs : s.advance t throws = some s') : Inv s' := by
  unfold State.advance at hs
  split at hs
  · next item rest htop =>
    unfold Shared.enqueue at hs
    by_cases hstop : s.shared.stop = true
    · simp only [hstop, if_true] at hs
      cases hs
      exact inv_refuse h htop
    · cases throws with
      | true =>
        simp only [hstop, if_true] at hs
        cases hs
        exact inv_refuse h htop
      | false =>
        rw [if_neg hstop] at hs
        cases hs
        exact inv_accept h htop (by simpa using hstop)
  · next op hasItem rest htop =>
    cases hs
    exact inv_complete h htop .stopped (.inl ⟨hasItem, rfl, rfl⟩)
  · next op completeStopped rest htop =>
    cases hs
    exact inv_complete h htop _ (.inr ⟨completeStopped, rfl, rfl⟩)
  · next op source rest htop =>
    cases hs
    exact inv_publish h htop
  · next op rest htop =>
    cases hs
    exact inv_account h htop
  · next op rest htop =>
    unfold Shared.discardItem at hs
    cases hf : s.shared.items.find? fun item => item.id = op with
    | none =>
      rw [hf] at hs
      cases hs
      apply inv_miss h htop
      intro hm
      obtain ⟨item, hi, he⟩ := List.mem_map.mp hm
      have hn := List.find?_eq_none.mp hf item hi
      simp [he] at hn
    | some item =>
      rw [hf] at hs
      cases hs
      obtain ⟨hp, l₁, l₂, he, hno⟩ := List.find?_eq_some_iff_append.mp hf
      have hnot : item ∉ l₁ := by
        intro hm
        have hn := hno item hm
        rw [hp] at hn
        cases hn
      have hi := inv_discard h htop he (by simpa using hp)
      rw [he, List.erase_append_right _ hnot, List.erase_cons_head]
      exact hi
  · next op rest htop =>
    split_ifs at hs with hdel
    cases hs
    exact inv_wake h htop hdel
  · cases hs

theorem inv_step (h : Inv s) {l : Label} (hs : step s l = some s') : Inv s' := by
  cases l with
  | start t item outcome =>
    simp only [step, Option.ite_none_right_eq_some, Option.some.injEq] at hs
    obtain ⟨⟨hf, hst, hd⟩, rfl⟩ := hs
    exact inv_start h hf hst hd outcome
  | requestItemStop op =>
    cases hs
    exact ⟨h.lives, { h.books with }⟩
  | shutdown =>
    cases hs
    exact ⟨h.lives, { h.books with exited := fun hex => ⟨rfl, (h.books.exited hex).2⟩ }⟩
  | destroy t op =>
    simp only [step, Option.ite_none_right_eq_some, Option.some.injEq] at hs
    obtain ⟨⟨hf, hd, hin⟩, rfl⟩ := hs
    exact inv_destroy h hf hd hin
  | iterate now =>
    simp only [step, Option.ite_none_right_eq_some, Option.some.injEq] at hs
    obtain ⟨⟨hw, hex, -⟩, rfl⟩ := hs
    exact inv_iterate h hw hex now
  | advance t throws => exact inv_advance h hs
  | ret t =>
    simp only [step] at hs
    split at hs
    · next op source rest htop =>
      cases hs
      exact inv_ret h htop
    · cases hs
  | wait t =>
    simp only [step, Option.ite_none_right_eq_some, Option.some.injEq] at hs
    obtain ⟨-, rfl⟩ := hs
    exact h

theorem reachable_inv (h : Reachable step Initial s) : Inv s := by
  refine h.preserves (P := Inv) ?_ fun _ _ _ hi hs => inv_step hi hs
  rintro _ ⟨now, rfl⟩
  exact inv_initial now

end CCForge.Timer.Operations
