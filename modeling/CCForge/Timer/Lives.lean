import CCForge.Timer.Operations

/-!
# The life of one timer operation

The view of an operation is the part of the state that is about it: its frames on all
stacks, its atomics, and what the queue and the history say about it. A step of the
system changes the view of one operation at most. `Lives` is the invariant of a view,
and there is one lemma for each step that an operation can take.
-/

namespace CCForge.Timer.Operations

/-! ## Frames -/

namespace Frame

/-- The operation that a frame is about. -/
def op : Frame → OpId
  | .enqueue item => item.id
  | .inlineStopped op _ | .deliver op _ | .completing op _ | .publish op _ | .account op
  | .discard op | .await op => op

/-- A frame on the way to the completion of the receiver or to the end of its delivery. -/
def delivers : Frame → Bool
  | .enqueue _ | .inlineStopped _ _ | .deliver _ _ | .completing _ _ | .publish _ _ => true
  | _ => false

def isCompleting : Frame → Bool
  | .completing _ _ => true
  | _ => false

def isDiscard : Frame → Bool
  | .discard _ => true
  | _ => false

def isAwait : Frame → Bool
  | .await _ => true
  | _ => false

/-- A frame of the destructor. -/
def destructs (f : Frame) : Bool := f.isDiscard || f.isAwait

end Frame

/-- The part of the state that is about one operation. -/
@[ext] structure View where
  stack : ThreadId → List Frame
  op : Op
  queued : Prop
  started : Prop
  discarded : Prop
  completed : Prop
  abandoned : Prop
  destroying : Prop
  /-- The destructor has returned to a caller outside of the operation's completion. -/
  outside : Prop

/-- What the frame that delivers an operation says about it. Without such a frame the
operation has not been started, is queued, or has come to its end. -/
def Fits (v : View) : Option (ThreadId × Frame) → Prop
  | none => v.op.inStart = false ∧
      ((¬v.started ∧ ¬v.queued ∧ ¬v.discarded ∧ v.op = {}) ∨
        (v.started ∧ v.queued ∧ ¬v.completed ∧ v.op.item = true ∧ v.op.delivered = false ∧
          ¬v.discarded) ∨
        (v.started ∧ ¬v.queued ∧ v.op.done = true ∧
          (v.op.item = true → v.op.delivered = true ∨ v.discarded)))
  | some (_, .enqueue _) => v.started ∧ ¬v.queued ∧ ¬v.discarded ∧ v.op.inStart = true ∧
      v.op.done = false ∧ v.op.delivered = false ∧ v.op.item = true
  | some (_, .inlineStopped _ hasItem) => v.started ∧ ¬v.queued ∧ ¬v.discarded ∧
      v.op.inStart = true ∧ v.op.done = false ∧ v.op.delivered = false ∧ v.op.item = hasItem
  | some (t, .deliver _ _) => v.started ∧ ¬v.queued ∧ ¬v.discarded ∧ v.op.inStart = false ∧
      ¬v.completed ∧ v.op.delivered = false ∧ v.op.item = true ∧ t = worker
  | some (t, .completing _ source) => v.started ∧ ¬v.queued ∧ ¬v.discarded ∧
      v.op.inStart = false ∧ v.op.done = true ∧ v.op.delivered = false ∧
      v.op.item = source.hasItem ∧ v.op.completingThread = some t
  | some (t, .publish _ source) => v.started ∧ ¬v.queued ∧ ¬v.discarded ∧
      v.op.inStart = false ∧ v.op.done = true ∧ v.op.delivered = false ∧
      v.op.item = source.hasItem ∧ v.op.completingThread = some t
  | _ => False

/-- What holds of an operation while the frame `f` of its destructor is on thread `t`. The
destructor does not run inside of what it may have to wait for. -/
structure Destructs (v : View) (t : ThreadId) (f : Frame) : Prop where
  item : v.op.item = true
  done : v.op.done = true
  destroying : v.destroying
  discarded : ¬v.discarded
  claimed : f.isDiscard = true → v.abandoned
  taken : f.isAwait = true → ¬v.queued
  apart : ∀ g ∈ v.stack t, g.delivers = false

/-- The invariant of an operation, with the frame that delivers it and the frame of its
destructor. -/
structure Lives (v : View) (o d : Option (ThreadId × Frame)) : Prop where
  sole : Sole Frame.delivers v.stack o
  fits : Fits v o
  destructor : Sole Frame.destructs v.stack d
  destructs : ∀ t f, d = some (t, f) → Destructs v t f
  claims : v.op.done = true ↔ v.completed ∨ v.abandoned
  exclusive : v.completed → ¬v.abandoned
  abandoned : v.abandoned → v.destroying
  discarded : v.discarded → v.abandoned
  gone : v.outside → v.destroying ∧ ¬v.queued ∧ v.op.inStart = false ∧
    (v.op.done = true ∨ ¬v.started) ∧ (v.op.item = true → o = none)

namespace Lives

variable {v : View} {o o' d : Option (ThreadId × Frame)} {t : ThreadId} {f : Frame}
  {rest : List Frame}

/-- An operation with a delivering frame. -/
theorem owned (h : Lives v (some (t, f)) d) :
    v.started ∧ ¬v.queued ∧ ¬v.discarded ∧ v.op.delivered = false := by
  have hfit := h.fits
  cases f with
  | enqueue item => exact ⟨hfit.1, hfit.2.1, hfit.2.2.1, hfit.2.2.2.2.2.1⟩
  | inlineStopped op hasItem => exact ⟨hfit.1, hfit.2.1, hfit.2.2.1, hfit.2.2.2.2.2.1⟩
  | deliver op c => exact ⟨hfit.1, hfit.2.1, hfit.2.2.1, hfit.2.2.2.2.2.1⟩
  | completing op source => exact ⟨hfit.1, hfit.2.1, hfit.2.2.1, hfit.2.2.2.2.2.1⟩
  | publish op source => exact ⟨hfit.1, hfit.2.1, hfit.2.2.1, hfit.2.2.2.2.2.1⟩
  | account op => cases hfit
  | discard op => cases hfit
  | await op => cases hfit

/-- The facts of `Fits` do not depend on the stacks and on what only the destructor does. -/
theorem fits_of_same {w : View} (h : Fits v o) (hop : w.op = v.op) (hq : w.queued = v.queued)
    (hs : w.started = v.started) (hd : w.discarded = v.discarded)
    (hc : w.completed = v.completed) : Fits w o := by
  rcases o with _ | ⟨u, x⟩
  · simpa only [Fits, hop, hq, hs, hd, hc] using h
  · cases x with
    | account op => cases h
    | discard op => cases h
    | await op => cases h
    | _ => simpa only [Fits, hop, hq, hs, hd, hc] using h

/-- An operation that was not started is as it was made. -/
theorem unstarted (h : Lives v o d) (hs : ¬v.started) :
    o = none ∧ ¬v.queued ∧ ¬v.discarded ∧ v.op = {} := by
  have hfit := h.fits
  rcases o with _ | ⟨u, x⟩
  · rcases hfit.2 with hfit | hfit | hfit
    · exact ⟨rfl, hfit.2⟩
    · exact absurd hfit.1 hs
    · exact absurd hfit.1 hs
  · exact absurd h.owned.1 hs

/-- A queued operation has no delivering frame. -/
theorem queued (h : Lives v o d) (hq : v.queued) : o = none ∧ v.started ∧ ¬v.completed ∧
    v.op.item = true ∧ v.op.delivered = false ∧ ¬v.discarded ∧ v.op.inStart = false := by
  have hfit := h.fits
  rcases o with _ | ⟨u, x⟩
  · rcases hfit.2 with hc | hc | hc
    · exact absurd hq hc.2.1
    · exact ⟨rfl, hc.1, hc.2.2.1, hc.2.2.2.1, hc.2.2.2.2.1, hc.2.2.2.2.2, hfit.1⟩
    · exact absurd hq hc.2.1
  · exact absurd hq h.owned.2.1

theorem start (h : Lives v o d) (hasItem : Bool) (hs : ¬v.started) (hd : ¬v.destroying)
    (hf : f.delivers = true)
    (hfit : ¬v.queued → ¬v.discarded → v.op = {} → Fits { v with
      stack := Function.update v.stack t (f :: v.stack t)
      op := { v.op with inStart := true, item := hasItem }
      started := True } (some (t, f))) :
    Lives { v with
      stack := Function.update v.stack t (f :: v.stack t)
      op := { v.op with inStart := true, item := hasItem }
      started := True } (some (t, f)) d := by
  obtain ⟨rfl, hq, hdisc, hop⟩ := h.unstarted hs
  have hnotd : f.destructs = false := by
    cases f <;> simp_all [Frame.delivers, Frame.destructs, Frame.isDiscard, Frame.isAwait]
  refine ⟨?_, hfit hq hdisc hop, ?_, ?_, h.claims, h.exclusive, h.abandoned, h.discarded, ?_⟩
  · refine h.sole.own (fun u _ => ownedBy_none u) ?_
    rw [List.filter_cons_of_pos hf, h.sole t]
    rfl
  · apply h.destructor.keep
    rw [List.filter_cons_of_neg (by simp [hnotd])]
  · intro u y hy
    exact absurd (h.destructs u y hy).destroying hd
  · intro hout
    exact absurd (h.gone hout).1 hd

/-- The delivery goes on: its frame `f` on thread `t` is replaced by `new`. -/
theorem moves (h : Lives v (some (t, f)) d) (new : List Frame) {x : Op} {q c : Prop}
    (htop : v.stack t = f :: rest) (hf : f.delivers = true)
    (hnew : new.filter Frame.destructs = [])
    (ho : (o' = none ∧ new.filter Frame.delivers = []) ∨
      ∃ g, o' = some (t, g) ∧ new.filter Frame.delivers = [g])
    (hfit : Fits { v with
      stack := Function.update v.stack t (new ++ rest), op := x, queued := q, completed := c } o')
    (hitem : x.item = v.op.item) (hdone : v.op.done = true → x.done = true)
    (hin : v.op.inStart = false → x.inStart = false)
    (hclaims : x.done = true ↔ c ∨ v.abandoned) (hexcl : c → ¬v.abandoned)
    (hq : q → v.op.done = false ∧ v.started) :
    Lives { v with
      stack := Function.update v.stack t (new ++ rest), op := x, queued := q, completed := c }
      o' d := by
  obtain ⟨-, hrest⟩ := h.sole.of_top htop hf
  have hnotd : f.destructs = false := by
    cases f <;> simp_all [Frame.delivers, Frame.destructs, Frame.isDiscard, Frame.isAwait]
  refine ⟨?_, hfit, ?_, ?_, hclaims, hexcl, h.abandoned, h.discarded, ?_⟩
  · rcases ho with ⟨rfl, hn⟩ | ⟨g, rfl, hn⟩
    · refine h.sole.disown (fun u hu => ownedBy_other hu f) ?_
      rw [List.filter_append, hn, hrest]
      rfl
    · refine h.sole.own (fun u hu => ownedBy_other hu f) ?_
      rw [List.filter_append, hn, hrest]
      rfl
  · apply h.destructor.keep
    rw [htop, List.filter_append, hnew, List.filter_cons_of_neg (by simp [hnotd])]
    rfl
  · intro u y hy
    have hd := h.destructs u y hy
    -- the destructor is on another thread than the delivering frame
    have hu : u ≠ t := by
      rintro rfl
      have hg := hd.apart f (by rw [htop]; exact List.mem_cons_self)
      rw [hf] at hg
      cases hg
    refine ⟨by rw [← hd.item]; exact hitem, hdone hd.done, hd.destroying, hd.discarded,
      hd.claimed, ?_, ?_⟩
    · intro _ hqq
      have hdn := hd.done
      rw [(hq hqq).1] at hdn
      cases hdn
    · intro g hg
      simp only [Function.update_of_ne hu] at hg
      exact hd.apart g hg
  · intro hout
    obtain ⟨h₁, h₂, h₃, h₄, h₅⟩ := h.gone hout
    refine ⟨h₁, ?_, hin h₃, ?_, ?_⟩
    · intro hqq
      obtain ⟨hd, hst⟩ := hq hqq
      rcases h₄ with h₄ | h₄
      · rw [hd] at h₄
        cases h₄
      · exact h₄ hst
    · rcases h₄ with h₄ | h₄
      · exact .inl (hdone h₄)
      · exact .inr h₄
    · intro hi
      have hnone := h₅ (by rw [← hitem]; exact hi)
      cases hnone

/-- The worker takes a queued operation for delivery. -/
theorem take (h : Lives v o d) (hq : v.queued) (hw : v.stack worker = []) {op : OpId}
    {completeStopped : Bool} :
    Lives { v with
      stack := Function.update v.stack worker [.deliver op completeStopped]
      queued := False } (some (worker, .deliver op completeStopped)) d := by
  obtain ⟨rfl, hst, hcomp, hitem, hdel, hdisc, hin⟩ := h.queued hq
  refine ⟨?_, ⟨hst, not_false, hdisc, hin, hcomp, hdel, hitem, rfl⟩, ?_, ?_, h.claims, h.exclusive,
    h.abandoned, h.discarded, ?_⟩
  · exact h.sole.own (fun u _ => ownedBy_none u) rfl
  · apply h.destructor.keep
    rw [hw]
    rfl
  · intro u y hy
    have hd := h.destructs u y hy
    have hu : u ≠ worker := by
      rintro rfl
      have hs := h.destructor worker
      rw [hw, hy, ownedBy_self] at hs
      cases hs
    refine ⟨hd.item, hd.done, hd.destroying, hd.discarded, hd.claimed, fun _ => not_false, ?_⟩
    intro g hg
    simp only [Function.update_of_ne hu] at hg
    exact hd.apart g hg
  · intro hout
    exact absurd hq (h.gone hout).2.1

/-! ## The destructor -/

/-- With the start over, an operation that is done and was not abandoned is in the hands of
its completion or at its end. -/
theorem of_done (h : Lives v o d) (hd : ¬v.destroying) (hdone : v.op.done = true) :
    ¬v.queued ∧ ¬v.discarded ∧ (o = none ∨ (∃ u op source,
      (o = some (u, .completing op source) ∨ o = some (u, .publish op source)) ∧
        v.op.completingThread = some u)) := by
  have hab : ¬v.abandoned := fun ha => hd (h.abandoned ha)
  have hcomp : v.completed := (h.claims.mp hdone).resolve_right hab
  refine ⟨fun hq => (h.queued hq).2.2.1 hcomp, fun hx => hab (h.discarded hx), ?_⟩
  have hfit := h.fits
  rcases o with _ | ⟨u, x⟩
  · exact .inl rfl
  · right
    cases x with
    | enqueue item =>
      have hn := hfit.2.2.2.2.1
      rw [hdone] at hn
      cases hn
    | inlineStopped op hasItem =>
      have hn := hfit.2.2.2.2.1
      rw [hdone] at hn
      cases hn
    | deliver op c => exact absurd hcomp hfit.2.2.2.2.1
    | completing op source => exact ⟨u, op, source, .inl rfl, hfit.2.2.2.2.2.2.2⟩
    | publish op source => exact ⟨u, op, source, .inr rfl, hfit.2.2.2.2.2.2.2⟩
    | account op => cases hfit
    | discard op => cases hfit
    | await op => cases hfit

theorem mem_of_owner (h : Lives v (some (t, f)) d) : f ∈ v.stack t := by
  have hs := h.sole t
  rw [ownedBy_self] at hs
  exact (List.mem_filter.mp (by rw [hs]; exact List.mem_singleton_self f)).1

theorem owner_of_mem (h : Lives v o d) {g : Frame} (hg : g ∈ v.stack t) (hd : g.delivers = true) :
    o = some (t, g) := by
  have hs := h.sole t
  have hm : g ∈ ownedBy o t := by
    rw [← hs]
    exact List.mem_filter.mpr ⟨hg, hd⟩
  rcases o with _ | ⟨u, x⟩
  · cases hm
  · by_cases htu : t = u
    · subst htu
      rw [ownedBy_self, List.mem_singleton] at hm
      rw [hm]
    · rw [ownedBy_other htu] at hm
      cases hm

theorem no_destructor (h : Lives v o d) (hd : ¬v.destroying) : d = none := by
  rcases d with _ | ⟨u, y⟩
  · rfl
  · exact absurd (h.destructs u y rfl).destroying hd

/-- The destructor returns without a frame of its own. -/
theorem returns (h : Lives v o d) (hd : ¬v.destroying) (hin : v.op.inStart = false) {z : Prop}
    (hz : z → v.op.item = true → o = none ∧ v.op.done = true) :
    Lives { v with destroying := True, outside := v.outside ∨ z } o d := by
  have hnone := h.no_destructor hd
  subst hnone
  refine ⟨h.sole, ?_, h.destructor, nofun, h.claims, h.exclusive, fun _ => trivial, h.discarded, ?_⟩
  · exact fits_of_same h.fits rfl rfl rfl rfl rfl
  · rintro (hout | hz')
    · exact absurd (h.gone hout).1 hd
    · refine ⟨trivial, ?_, hin, ?_, fun hi => (hz hz' hi).1⟩
      · intro hq
        obtain ⟨-, -, hcomp, hitem, -, -, -⟩ := h.queued hq
        have hab := (h.claims.mp (hz hz' hitem).2).resolve_left hcomp
        exact hd (h.abandoned hab)
      · cases hi : v.op.item with
        | true => exact .inl (hz hz' hi).2
        | false =>
          have hfit := h.fits
          rcases o with _ | ⟨u, x⟩
          · rcases hfit.2 with hc | hc | hc
            · exact .inr hc.1
            · rw [hi] at hc
              cases hc.2.2.2.1
            · exact .inl hc.2.2.1
          · cases x with
            | enqueue item =>
              have hn := hfit.2.2.2.1
              rw [hin] at hn
              cases hn
            | inlineStopped op hasItem =>
              have hn := hfit.2.2.2.1
              rw [hin] at hn
              cases hn
            | deliver op c =>
              have hn := hfit.2.2.2.2.2.2.1
              rw [hi] at hn
              cases hn
            | completing op source => exact .inl hfit.2.2.2.2.1
            | publish op source => exact .inl hfit.2.2.2.2.1
            | account op => cases hfit
            | discard op => cases hfit
            | await op => cases hfit

/-- The destructor finds the operation done by a completion on another thread. -/
theorem parks (h : Lives v o d) (hd : ¬v.destroying) (hitem : v.op.item = true)
    (hdone : v.op.done = true) (ht : v.op.completingThread ≠ some t) {op : OpId} :
    Lives { v with
      stack := Function.update v.stack t (.await op :: v.stack t), destroying := True }
      o (some (t, .await op)) := by
  have hnone := h.no_destructor hd
  subst hnone
  obtain ⟨hq, hdisc, howner⟩ := h.of_done hd hdone
  have hapart : ∀ g ∈ v.stack t, g.delivers = false := by
    intro g hg
    by_contra hgd
    have ho := h.owner_of_mem hg (by simpa using hgd)
    rcases howner with hn | ⟨u, op', source, hu, hct⟩
    · rw [ho] at hn
      cases hn
    · rcases hu with hu | hu <;> rw [ho] at hu <;> cases hu <;> exact ht hct
  refine ⟨?_, ?_, ?_, ?_, h.claims, h.exclusive, fun _ => trivial, h.discarded, ?_⟩
  · apply h.sole.keep
    rw [List.filter_cons_of_neg (by simp [Frame.delivers])]
  · exact fits_of_same h.fits rfl rfl rfl rfl rfl
  · refine h.destructor.own (fun u _ => ownedBy_none u) ?_
    rw [List.filter_cons_of_pos (by rfl), h.destructor t]
    rfl
  · intro u y hy
    cases hy
    refine ⟨hitem, hdone, trivial, hdisc, nofun, fun _ => hq, ?_⟩
    intro g hg
    simp only [Function.update_self] at hg
    rcases List.mem_cons.mp hg with rfl | hg
    · rfl
    · exact hapart g hg
  · intro hout
    exact absurd (h.gone hout).1 hd

/-- The destructor claims the operation. -/
theorem abandons (h : Lives v o d) (hd : ¬v.destroying) (hitem : v.op.item = true)
    (hdone : v.op.done = false) (hin : v.op.inStart = false)
    (hclean : ∀ g ∈ v.stack t, g.delivers = true → g.isCompleting = true) {op : OpId} :
    Lives { v with
      stack := Function.update v.stack t (.discard op :: v.stack t)
      op := { v.op with done := true }
      abandoned := True
      destroying := True } o (some (t, .discard op)) := by
  have hnone := h.no_destructor hd
  subst hnone
  have hcomp : ¬v.completed := by
    intro hc
    have hn := h.claims.mpr (.inl hc)
    rw [hdone] at hn
    cases hn
  have hdisc : ¬v.discarded := fun hx => hd (h.abandoned (h.discarded hx))
  have hfit := h.fits
  -- A frame that delivers would own the operation, and each owner contradicts `hdone` or `hin`.
  have hapart : ∀ g ∈ v.stack t, g.delivers = false := by
    intro g hg
    by_contra hgd
    have hgd : g.delivers = true := by simpa using hgd
    have ho := h.owner_of_mem hg hgd
    have hc := hclean g hg hgd
    subst ho
    cases g with
    | completing op' source =>
      have hn := hfit.2.2.2.2.1
      rw [hdone] at hn
      cases hn
    | _ => cases hc
  refine ⟨?_, ?_, ?_, ?_, ?_, fun hc => absurd hc hcomp, fun _ => trivial, fun _ => trivial, ?_⟩
  · apply h.sole.keep
    rw [List.filter_cons_of_neg (by simp [Frame.delivers])]
  · rcases o with _ | ⟨u, x⟩
    · refine ⟨hfit.1, ?_⟩
      rcases hfit.2 with hc | hc | hc
      · rw [hc.2.2.2] at hitem
        cases hitem
      · exact .inr (.inl hc)
      · have hn := hc.2.2.1
        rw [hdone] at hn
        cases hn
    · cases x with
      | enqueue item =>
        have hn := hfit.2.2.2.1
        rw [hin] at hn
        cases hn
      | inlineStopped op hasItem =>
        have hn := hfit.2.2.2.1
        rw [hin] at hn
        cases hn
      | deliver op c => exact hfit
      | completing op source =>
        have hn := hfit.2.2.2.2.1
        rw [hdone] at hn
        cases hn
      | publish op source =>
        have hn := hfit.2.2.2.2.1
        rw [hdone] at hn
        cases hn
      | account op => cases hfit
      | discard op => cases hfit
      | await op => cases hfit
  · refine h.destructor.own (fun u _ => ownedBy_none u) ?_
    rw [List.filter_cons_of_pos (by rfl), h.destructor t]
    rfl
  · intro u y hy
    cases hy
    refine ⟨hitem, rfl, trivial, hdisc, fun _ => trivial, nofun, ?_⟩
    intro g hg
    simp only [Function.update_self] at hg
    rcases List.mem_cons.mp hg with rfl | hg
    · rfl
    · exact hapart g hg
  · exact ⟨fun _ => .inr trivial, fun _ => rfl⟩
  · intro hout
    exact absurd (h.gone hout).1 hd

/-- The destructor takes the item out of the queue and returns. -/
theorem discards (h : Lives v o d) {op : OpId} (htop : v.stack t = .discard op :: rest)
    (hq : v.queued) {z : Prop} :
    Lives { v with
      stack := Function.update v.stack t rest
      queued := False
      discarded := True
      outside := v.outside ∨ z } none none := by
  obtain ⟨rfl, hst, hcomp, hitem, hdel, hdisc, hin⟩ := h.queued hq
  obtain ⟨rfl, hrest⟩ := h.destructor.of_top htop rfl
  have hd := h.destructs t _ rfl
  refine ⟨?_, ⟨hin, .inr (.inr ⟨hst, not_false, hd.done, fun _ => .inr trivial⟩)⟩, ?_, nofun,
    h.claims, h.exclusive, h.abandoned, fun _ => hd.claimed rfl, ?_⟩
  · apply h.sole.keep
    rw [htop, List.filter_cons_of_neg (by simp [Frame.delivers])]
  · exact h.destructor.disown (fun u hu => ownedBy_other hu _) hrest
  · intro _
    exact ⟨hd.destroying, not_false, hin, .inl hd.done, fun _ => rfl⟩

/-- The item was taken for delivery before the destructor could discard it. -/
theorem misses (h : Lives v o d) {op : OpId} (htop : v.stack t = .discard op :: rest)
    (hq : ¬v.queued) :
    Lives { v with stack := Function.update v.stack t (.await op :: rest) }
      o (some (t, .await op)) := by
  obtain ⟨rfl, hrest⟩ := h.destructor.of_top htop rfl
  have hd := h.destructs t _ rfl
  refine ⟨?_, ?_, ?_, ?_, h.claims, h.exclusive, h.abandoned, h.discarded, h.gone⟩
  · apply h.sole.keep
    rw [htop, List.filter_cons_of_neg (by simp [Frame.delivers]),
      List.filter_cons_of_neg (by simp [Frame.delivers])]
  · exact fits_of_same h.fits rfl rfl rfl rfl rfl
  · refine h.destructor.own (fun u hu => ownedBy_other hu _) ?_
    rw [List.filter_cons_of_pos (by rfl), hrest]
  · intro u y hy
    cases hy
    refine ⟨hd.item, hd.done, hd.destroying, hd.discarded, nofun, fun _ => hq, ?_⟩
    intro g hg
    simp only [Function.update_self] at hg
    rcases List.mem_cons.mp hg with rfl | hg
    · rfl
    · exact hd.apart g (by rw [htop]; exact List.mem_cons_of_mem _ hg)

/-- The delivery that the destructor waited for is over. -/
theorem wakes (h : Lives v o d) {op : OpId} (htop : v.stack t = .await op :: rest)
    (hdel : v.op.delivered = true) {z : Prop} :
    Lives { v with
      stack := Function.update v.stack t rest, outside := v.outside ∨ z } none none := by
  obtain ⟨rfl, hrest⟩ := h.destructor.of_top htop rfl
  have hd := h.destructs t _ rfl
  have hfit := h.fits
  obtain ⟨rfl, hin⟩ : o = none ∧ v.op.inStart = false := by
    rcases o with _ | ⟨u, x⟩
    · exact ⟨rfl, hfit.1⟩
    · have hn := h.owned.2.2.2
      rw [hdel] at hn
      cases hn
  refine ⟨?_, hfit, ?_, nofun, h.claims, h.exclusive, h.abandoned, h.discarded, ?_⟩
  · apply h.sole.keep
    rw [htop, List.filter_cons_of_neg (by simp [Frame.delivers])]
  · exact h.destructor.disown (fun u hu => ownedBy_other hu _) hrest
  · intro _
    exact ⟨hd.destroying, hd.taken rfl, hin, .inl hd.done, fun _ => rfl⟩

/-- A frame that neither delivers nor destructs comes to its end. -/
theorem accounts (h : Lives v o d) {op : OpId} (htop : v.stack t = .account op :: rest) :
    Lives { v with stack := Function.update v.stack t rest } o d := by
  refine ⟨?_, ?_, ?_, ?_, h.claims, h.exclusive, h.abandoned, h.discarded, h.gone⟩
  · apply h.sole.keep
    rw [htop, List.filter_cons_of_neg (by simp [Frame.delivers])]
  · exact fits_of_same h.fits rfl rfl rfl rfl rfl
  · apply h.destructor.keep
    rw [htop, List.filter_cons_of_neg (by simp [Frame.destructs, Frame.isDiscard, Frame.isAwait])]
  · intro u y hy
    have hd := h.destructs u y hy
    refine ⟨hd.item, hd.done, hd.destroying, hd.discarded, hd.claimed, hd.taken, ?_⟩
    intro g hg
    by_cases hu : u = t
    · subst hu
      simp only [Function.update_self] at hg
      exact hd.apart g (by rw [htop]; exact List.mem_cons_of_mem _ hg)
    · simp only [Function.update_of_ne hu] at hg
      exact hd.apart g hg

end Lives

end CCForge.Timer.Operations
