import CCForge.StopSource.Invariants

/-!
# Every step of a stop source keeps the invariant
-/

namespace CCForge.StopSource

variable {s s' : State} {o o' : Option (ThreadId × Frame)} {t : ThreadId} {c : CallbackId}
  {new rest : List Frame} {f g : Frame}

/-! ## The request under way -/

/-- A step of thread `t` that is no step of the request. -/
theorem Request.keep (h : Request s o) (hs : s'.stack = Function.update s.stack t new)
    (hf : new.filter Frame.requests = (s.stack t).filter Frame.requests)
    (hm : s'.mtx = s.mtx) (hq : s'.requester = s.requester)
    (hr : s'.stopRequested = s.stopRequested) (hres : s'.results = s.results)
    (hempty : s.callbacks = [] → s.stopRequested = true → s'.callbacks = [])
    (hnodup : (s'.callbacks ++ lineOf o).Nodup) : Request s' o := by
  refine ⟨?_, ?_, ?_, ?_, ?_, ?_, ?_, hnodup⟩
  · rw [hs]
    exact h.sole.keep hf
  · rw [hm]
    exact h.mtx
  · rw [hq]
    exact h.requester
  · rw [hr, hq]
    exact h.stop
  · intro hstop
    rw [hr] at hstop
    exact hempty (h.emptied hstop) hstop
  · rw [hres, hr]
    exact h.won
  · rw [hres, hr]
    exact h.lost

theorem Request.of_top (h : Request s o) (htop : s.stack t = f :: rest) (hf : f.requests = true) :
    o = some (t, f) ∧ rest.filter Frame.requests = [] ∧ s.requester = some t ∧
      s.stopRequested = true ∧ s.callbacks = [] := by
  obtain ⟨ho, hrest⟩ := h.sole.of_top htop hf
  have hq := h.requester t f ho
  have hstop : s.stopRequested = true := by simp [h.stop, hq]
  exact ⟨ho, hrest, hq, hstop, h.emptied hstop⟩

/-- The request on thread `t` goes on from `f` to `g`. -/
theorem Request.move (h : Request s o) (htop : s.stack t = f :: rest) (hf : f.requests = true)
    (hg : g.requests = true) (hs : s'.stack = Function.update s.stack t (g :: rest))
    (hm : s'.mtx = if g.locks then some t else none) (hq : s'.requester = s.requester)
    (hr : s'.stopRequested = s.stopRequested) (hres : s'.results = s.results)
    (hcb : s'.callbacks = s.callbacks) (hline : g.line.Sublist f.line) :
    Request s' (some (t, g)) := by
  obtain ⟨rfl, hrest, -, -, -⟩ := h.of_top htop hf
  refine ⟨?_, ?_, ?_, ?_, ?_, ?_, ?_, ?_⟩
  · rw [hs]
    refine h.sole.own (fun u hu => ownedBy_other hu f) ?_
    rw [List.filter_cons_of_pos hg, hrest]
  · intro u
    rw [hm]
    cases hlocks : g.locks <;> simp [hlocks]
  · intro u k hu
    cases hu
    rw [hq]
    exact h.requester t f rfl
  · rw [hr, hq]
    exact h.stop
  · rw [hr, hcb]
    exact h.emptied
  · rw [hres, hr]
    exact h.won
  · rw [hres, hr]
    exact h.lost
  · rw [hcb]
    exact h.nodup.sublist (List.Sublist.append_left hline _)

theorem Request.nodup_line (h : Request s (some (t, f))) : f.line.Nodup :=
  (List.nodup_append.mp h.nodup).2.1

theorem placeOf_request (hcb : s.callbacks = []) (c : CallbackId) :
    placeOf s.callbacks (some (t, f)) c = f.place c := by
  simp [placeOf, hcb]

/-- A step of the request that deals with callback `d` alone, or with none. -/
theorem Inv.request_step (h : Inv s o) (htop : s.stack t = f :: rest) (hf : f.requests = true)
    (hg : g.requests = true) (hs : s'.stack = Function.update s.stack t (g :: rest))
    (hm : s'.mtx = if g.locks then some t else none) (hq : s'.requester = s.requester)
    (hr : s'.stopRequested = s.stopRequested) (hres : s'.results = s.results)
    (hcb : s'.callbacks = s.callbacks) (hline : g.line.Sublist f.line)
    (hother : ∀ c, s'.callback c = s.callback c ∧ g.place c = f.place c ∨
      ∀ b d, Sound (some t) c ⟨s.callback c, f.place c, b, d⟩ →
        Sound (some t) c ⟨s'.callback c, g.place c, b, d⟩) :
    Inv s' (some (t, g)) := by
  obtain ⟨rfl, -, hreq, -, hnil⟩ := h.request.of_top htop hf
  have hbuilds : ∀ c, (g :: rest).filter (Frame.builds c) = (s.stack t).filter (Frame.builds c) := by
    intro c
    rw [htop]
    cases f <;> cases g <;> simp_all [Frame.requests, Frame.builds]
  have hdestroys : ∀ c,
      (g :: rest).filter (Frame.destroys c) = (s.stack t).filter (Frame.destroys c) := by
    intro c
    rw [htop]
    cases f <;> cases g <;> simp_all [Frame.requests, Frame.destroys]
  refine ⟨h.request.move htop hf hg hs hm hq hr hres hcb hline, fun c => ?_⟩
  refine (h.lives c).keep hs (hbuilds c) (hdestroys c) fun b d hv => ?_
  rw [hq, hreq, hcb, placeOf_request hnil]
  rw [hreq, placeOf_request hnil] at hv
  rcases hother c with ⟨hsame, hplace⟩ | hact
  · rw [hsame, hplace]
    exact hv
  · exact hact b d hv

/-! ## Constructors and destructors -/

/-- The frames of the constructor and the destructor of `c`. -/
def Frame.concerns (c : CallbackId) (f : Frame) : Prop :=
  f.requests = false ∧ ∀ d, d ≠ c → f.builds d = false ∧ f.destroys d = false

theorem Frame.concerns.filters {hd : List Frame} (h : ∀ f ∈ hd, f.concerns c)
    (rest : List Frame) :
    (hd ++ rest).filter Frame.requests = rest.filter Frame.requests ∧
    ∀ d, d ≠ c → (hd ++ rest).filter (Frame.builds d) = rest.filter (Frame.builds d) ∧
      (hd ++ rest).filter (Frame.destroys d) = rest.filter (Frame.destroys d) := by
  have hnone : ∀ p : Frame → Bool, (∀ f ∈ hd, p f = false) → (hd ++ rest).filter p = rest.filter p := by
    intro p hp
    have hnil : hd.filter p = [] := List.filter_eq_nil_iff.mpr fun f hf => by simp [hp f hf]
    rw [List.filter_append, hnil, List.nil_append]
  exact ⟨hnone _ fun f hf => (h f hf).1, fun d hd => ⟨hnone _ fun f hf => ((h f hf).2 d hd).1,
    hnone _ fun f hf => ((h f hf).2 d hd).2⟩⟩

/-- A step of the constructor or the destructor of `c`, which exchanges the frames `old`
on thread `t` for `hd`. -/
theorem Inv.own_step (h : Inv s o) (c : CallbackId) (old hd : List Frame) (htop : s.stack t = old ++ rest)
    (hs : s'.stack = Function.update s.stack t (hd ++ rest)) (hold : ∀ f ∈ old, f.concerns c)
    (hhd : ∀ f ∈ hd, f.concerns c) (hm : s'.mtx = s.mtx) (hq : s'.requester = s.requester)
    (hr : s'.stopRequested = s.stopRequested) (hres : s'.results = s.results)
    (hcb : ∀ d, d ≠ c → s'.callback d = s.callback d)
    (hmem : ∀ d, d ≠ c → (d ∈ s'.callbacks ↔ d ∈ s.callbacks))
    (hempty : s.callbacks = [] → s.stopRequested = true → s'.callbacks = [])
    (hnodup : (s'.callbacks ++ lineOf o).Nodup) (hlive : Lives s' o c) : Inv s' o := by
  obtain ⟨hreq, hothers⟩ := Frame.concerns.filters hhd rest
  obtain ⟨hreq', hothers'⟩ := Frame.concerns.filters hold rest
  refine ⟨h.request.keep hs ?_ hm hq hr hres hempty hnodup, fun d => ?_⟩
  · rw [htop, hreq, hreq']
  · by_cases hdc : d = c
    · rw [hdc]
      exact hlive
    · refine (h.lives d).other hs ?_ ?_ hq (hcb d hdc) ?_
      · rw [htop, (hothers d hdc).1, (hothers' d hdc).1]
      · rw [htop, (hothers d hdc).2, (hothers' d hdc).2]
      · simp only [placeOf, hmem d hdc]

theorem inv_construct (h : Inv s o) (hu : (s.callback c).built = .unborn) :
    Inv ((s.setCallback c fun cb =>
      { cb with source := true, built := .constructing
                control := { cb.control with object := true } }).setStack t
        (.constructing c :: s.stack t)) o := by
  refine h.own_step c [] [.constructing c] rfl rfl (by simp) ?_ rfl rfl rfl rfl
    (fun d hd => Function.update_of_ne hd _ _) (fun _ _ => Iff.rfl) (fun hnil _ => hnil) h.request.nodup ?_
  · simp +contextual [Frame.concerns, Frame.requests, Frame.builds, Frame.destroys, eq_comm]
  · obtain ⟨b, d, hsb, hsd, hv⟩ := h.lives c
    have hb : b = none := by
      by_contra hne
      have hcon := hv.building.mpr hne
      simp [hu] at hcon
    subst hb
    refine ⟨some (t, .constructing c), d, hsb.own (fun _ _ => rfl) ?_, hsd.keep ?_, ?_⟩
    · rw [List.filter_cons_of_pos (by simp [Frame.builds]), hsb t]
      rfl
    · rw [List.filter_cons_of_neg (by simp [Frame.destroys])]
    · simpa using hv.construct hu

theorem inv_destroy (h : Inv s o) (hd : Destructible s t c) :
    Inv ((s.setCallback c fun cb => { cb with doomed := true }).setStack t
      (if (s.callback c).source ∧ (s.callback c).control.detached = false
        then .removing c :: s.stack t else .cancelling c :: s.stack t)) o := by
  obtain ⟨hdoom, hbuilt⟩ := hd
  obtain ⟨f, hf⟩ : ∃ f, f = if (s.callback c).source = true ∧ (s.callback c).control.detached = false
      then Frame.removing c else Frame.cancelling c := ⟨_, rfl⟩
  have hstack : (if (s.callback c).source ∧ (s.callback c).control.detached = false
      then Frame.removing c :: s.stack t else .cancelling c :: s.stack t) = f :: s.stack t := by
    rw [hf]
    split_ifs <;> rfl
  have hfd : f.destroys c = true ∧ f.builds c = false ∧ f.concerns c := by
    rw [hf]
    split_ifs <;>
      simp +contextual [Frame.concerns, Frame.requests, Frame.builds, Frame.destroys, eq_comm]
  rw [hstack]
  refine h.own_step c [] [f] rfl rfl (by simp) ?_ rfl rfl rfl rfl
    (fun d hd => Function.update_of_ne hd _ _) (fun _ _ => Iff.rfl) (fun hnil _ => hnil) h.request.nodup ?_
  · simpa using hfd.2.2
  · obtain ⟨b, d, hsb, hsd, hv⟩ := h.lives c
    have hd : d = none := by
      by_contra hne
      have hcon := (hv.dtor hne).1
      simp [hdoom] at hcon
    subst hd
    have hbuild : (s.callback c).built = .registered ∨ (s.callback c).built = .invoked ∨
        b = some (t, .runningInline c) := by
      rcases hbuilt with hx | hx | hx
      · exact .inl hx
      · exact .inr (.inl hx)
      · right; right
        have hmem : Frame.runningInline c ∈ (s.stack t).filter (Frame.builds c) :=
          List.mem_filter.mpr ⟨hx, by simp [Frame.builds]⟩
        rw [hsb t] at hmem
        rcases b with _ | ⟨u, k⟩
        · simp at hmem
        · by_cases htu : t = u
          · subst htu
            simp only [ownedBy_self, List.mem_singleton] at hmem
            rw [hmem]
          · simp [ownedBy_other htu] at hmem
    refine ⟨b, some (t, f), hsb.keep ?_, hsd.own (fun _ _ => rfl) ?_, ?_⟩
    · rw [List.filter_cons_of_neg (by simp [hfd.2.1])]
    · rw [List.filter_cons_of_pos hfd.1, hsd t]
      rfl
    · simpa using hv.destroy hdoom hbuild hf

theorem Lives.of_constructing (h : Lives s o c) (htop : s.stack t = .constructing c :: rest) :
    c ∉ s.callbacks := by
  obtain ⟨b, d, hsb, -, hv⟩ := h
  obtain ⟨rfl, -⟩ := hsb.of_top htop (by simp [Frame.builds])
  intro hm
  have hbuilt := hv.building.mpr (by simp)
  have hreg := hv.placed (by simp [placeOf, hm])
  simp only at hbuilt hreg
  rw [hbuilt] at hreg
  cases hreg

theorem concerns_build : (Frame.constructing c).concerns c ∧ (Frame.inline c).concerns c ∧
    (Frame.runningInline c).concerns c := by
  simp +contextual [Frame.concerns, Frame.requests, Frame.builds, Frame.destroys, eq_comm]

theorem concerns_destroy : (Frame.removing c).concerns c ∧ (Frame.cancelling c).concerns c ∧
    (Frame.waiting c).concerns c := by
  simp +contextual [Frame.concerns, Frame.requests, Frame.builds, Frame.destroys, eq_comm]

theorem inv_register (h : Inv s o) (htop : s.stack t = .constructing c :: rest)
    (hstop : s.stopRequested = false) :
    Inv ((({ s.setCallback c fun cb => { cb with prev := true } with
      callbacks := c :: s.callbacks }).setCallback c
        fun cb => { cb with built := .registered }).setStack t rest) o := by
  have hq : s.requester = none := by simpa [hstop] using h.request.stop
  have ho : o = none := by
    rcases o with _ | ⟨u, f⟩
    · rfl
    · simp [h.request.requester u f rfl] at hq
  subst ho
  have hc := (h.lives c).of_constructing htop
  refine h.own_step c [.constructing c] [] htop rfl (by simpa using concerns_build.1) (by simp)
    rfl rfl rfl rfl (fun d hd => by simp [hd]) (fun d hd => by simp [hd]) ?_ ?_ ?_
  · intro _ hs
    rw [hstop] at hs
    cases hs
  · have hn := h.request.nodup
    simp only [lineOf, List.append_nil] at hn
    simpa [lineOf] using ⟨hc, hn⟩
  · refine (h.lives c).built htop (by simp [Frame.builds]) rfl rfl fun d hv => ?_
    have hplace : placeOf s.callbacks none c = .outside := by simp [placeOf, hc]
    rw [hq] at hv
    have hreg := hv.register rfl
    simpa [placeOf, hq] using hreg

theorem inv_tooLate (h : Inv s o) (htop : s.stack t = .constructing c :: rest) :
    Inv ((s.setCallback c fun cb => { cb with source := false }).setStack t
      (.inline c :: rest)) o := by
  refine h.own_step c [.constructing c] [.inline c] htop rfl (by simpa using concerns_build.1)
    (by simpa using concerns_build.2.1) rfl rfl rfl rfl (fun d hd => Function.update_of_ne hd _ _)
    (fun _ _ => Iff.rfl) (fun hnil _ => hnil) h.request.nodup ?_
  refine (h.lives c).build htop (by simp [Frame.builds]) (by simp [Frame.builds]) rfl rfl rfl
    fun d hv => ?_
  simpa using hv.tooLate rfl

theorem inv_startInline (h : Inv s o) (htop : s.stack t = .inline c :: rest) :
    Inv ((s.setCallback c fun cb => { cb with started := cb.started ++ [t] }).setStack t
      (.runningInline c :: rest)) o := by
  refine h.own_step c [.inline c] [.runningInline c] htop rfl (by simpa using concerns_build.2.1)
    (by simpa using concerns_build.2.2) rfl rfl rfl rfl (fun d hd => Function.update_of_ne hd _ _)
    (fun _ _ => Iff.rfl) (fun hnil _ => hnil) h.request.nodup ?_
  refine (h.lives c).build htop (by simp [Frame.builds]) (by simp [Frame.builds]) rfl rfl rfl
    fun d hv => ?_
  simpa using hv.startInline rfl

theorem inv_endInline (h : Inv s o) (htop : s.stack t = .runningInline c :: rest) :
    Inv ((s.setCallback c fun cb =>
      { cb with ended := cb.ended ++ [t], built := .invoked }).setStack t rest) o := by
  refine h.own_step c [.runningInline c] [] htop rfl (by simpa using concerns_build.2.2)
    (by simp) rfl rfl rfl rfl (fun d hd => Function.update_of_ne hd _ _)
    (fun _ _ => Iff.rfl) (fun hnil _ => hnil) h.request.nodup ?_
  refine (h.lives c).built htop (by simp [Frame.builds]) rfl rfl fun d hv => ?_
  simpa using hv.endInline rfl

theorem inv_remove (h : Inv s o) (htop : s.stack t = .removing c :: rest) (hm : s.mtx = none) :
    Inv ((s.removeCallback c).setStack t (.cancelling c :: rest)) o := by
  have hunlocked : ∀ u f, o = some (u, f) → f.locks = false := by
    intro u f ho
    by_contra hl
    have hmtx := (h.request.mtx u).mpr ⟨f, ho, by simpa using hl⟩
    simp [hm] at hmtx
  have hraw : placeOf s.callbacks o c ≠ .raw := by
    unfold placeOf
    split_ifs
    · simp
    · rcases o with _ | ⟨u, f⟩
      · simp
      · have hl := hunlocked u f rfl
        cases f <;> simp_all [Frame.place, Frame.locks] <;> split_ifs <;> simp
  by_cases hp : (s.callback c).prev = true
  · have he : s.removeCallback c = { s.setCallback c fun cb => { cb with prev := false } with
        callbacks := s.callbacks.erase c } := by simp [State.removeCallback, hp]
    rw [he]
    have hn := h.request.nodup
    have hcb : s.callbacks.Nodup := (List.nodup_append.mp hn).1
    refine h.own_step c [.removing c] [.cancelling c] htop rfl
      (by simpa using concerns_destroy.1) (by simpa using concerns_destroy.2.1) rfl rfl rfl rfl
      (fun d hd => Function.update_of_ne hd _ _) ?_ ?_ ?_ ?_
    · exact fun d hd => List.mem_erase_of_ne hd
    · intro hnil _
      simp [hnil]
    · exact hn.sublist (List.Sublist.append_right List.erase_sublist _)
    · refine (h.lives c).destroy htop (by simp [Frame.destroys]) (by simp [Frame.destroys]) rfl rfl
        rfl fun b hv => ?_
      have hlisted : placeOf s.callbacks o c = .listed := (hv.prev.mp hp).resolve_right hraw
      have hmem : c ∈ s.callbacks := by
        by_contra hnot
        simp only [placeOf, hnot, if_false] at hlisted
        rcases o with _ | ⟨u, f⟩
        · cases hlisted
        · revert hlisted
          cases f <;> simp [Frame.place] <;> split_ifs <;> simp
      have hout : placeOf (s.callbacks.erase c) o c = .outside := by
        have hgone : c ∉ s.callbacks.erase c := hcb.not_mem_erase
        have hline : c ∉ lineOf o := fun hl => (List.nodup_append.mp hn).2.2 c hmem c hl rfl
        simp only [placeOf, hgone, if_false]
        rcases o with _ | ⟨u, f⟩
        · rfl
        · cases f <;> simp_all [Frame.place, lineOf, Frame.line]
      have hrem := hv.remove rfl hlisted
      simpa [hout] using hrem
  · have he : s.removeCallback c = s := by simp [State.removeCallback, hp]
    rw [he]
    refine h.own_step c [.removing c] [.cancelling c] htop rfl
      (by simpa using concerns_destroy.1) (by simpa using concerns_destroy.2.1) rfl rfl rfl rfl
      (fun _ _ => rfl) (fun _ _ => Iff.rfl) (fun hnil _ => hnil) h.request.nodup ?_
    refine (h.lives c).destroy htop (by simp [Frame.destroys]) (by simp [Frame.destroys]) rfl rfl rfl
      fun b hv => ?_
    exact hv.removed rfl (by simpa using hp)

theorem inv_wait (h : Inv s o) (htop : s.stack t = .cancelling c :: rest)
    (hr : (s.callback c).control.running = true)
    (hne : (s.callback c).control.requestThread ≠ some t) :
    Inv ((s.setCallback c State.cancel).setStack t (.waiting c :: rest)) o := by
  refine h.own_step c [.cancelling c] [.waiting c] htop rfl
    (by simpa using concerns_destroy.2.1) (by simpa using concerns_destroy.2.2) rfl rfl rfl rfl
    (fun d hd => Function.update_of_ne hd _ _) (fun _ _ => Iff.rfl) (fun hnil _ => hnil)
    h.request.nodup ?_
  refine (h.lives c).destroy htop (by simp [Frame.destroys]) (by simp [Frame.destroys]) rfl rfl rfl
    fun b hv => ?_
  simpa using hv.wait rfl hr hne

theorem inv_cancelReturn (h : Inv s o) (htop : s.stack t = .cancelling c :: rest)
    (hr : ¬((s.callback c).control.running = true ∧
      (s.callback c).control.requestThread ≠ some t)) :
    Inv ((s.setCallback c State.cancel).destroyReturn t c rest) o := by
  refine h.own_step c [.cancelling c] [] htop rfl (by simpa using concerns_destroy.2.1) (by simp)
    rfl rfl rfl rfl (fun d hd => by simp [State.destroyReturn, hd]) (fun _ _ => Iff.rfl)
    (fun hnil _ => hnil) h.request.nodup ?_
  refine (h.lives c).destroyed htop (by simp [Frame.destroys]) rfl rfl fun b hb hv => ?_
  have hret := hv.cancelReturn rfl hr (decide (.runningInline c ∈ rest))
    (fun hne => by simpa using hb hne)
  simpa [State.destroyReturn] using hret

theorem inv_waitReturn (h : Inv s o) (htop : s.stack t = .waiting c :: rest)
    (hr : (s.callback c).control.running = false) : Inv (s.destroyReturn t c rest) o := by
  refine h.own_step c [.waiting c] [] htop rfl (by simpa using concerns_destroy.2.2) (by simp)
    rfl rfl rfl rfl (fun d hd => by simp [State.destroyReturn, hd]) (fun _ _ => Iff.rfl)
    (fun hnil _ => hnil) h.request.nodup ?_
  refine (h.lives c).destroyed htop (by simp [Frame.destroys]) rfl rfl fun b hb hv => ?_
  have hret := hv.waitReturn rfl hr (decide (.runningInline c ∈ rest))
    (fun hne => by simpa using hb hne)
  simpa [State.destroyReturn] using hret

/-! ## Steps of the request -/

theorem inv_detach {raw head : List CallbackId} (h : Inv s o)
    (htop : s.stack t = .detaching (c :: raw) head :: rest) :
    Inv ((s.setCallback c (State.detach t)).setStack t (.detaching raw (head ++ [c]) :: rest))
      (some (t, .detaching raw (head ++ [c]))) := by
  obtain ⟨rfl, -, -, -, -⟩ := h.request.of_top htop rfl
  have hn := h.request.nodup_line
  simp only [Frame.line, List.nodup_append, List.nodup_cons, List.mem_cons] at hn
  refine h.request_step htop rfl rfl rfl ?_ rfl rfl rfl rfl ?_ fun d => ?_
  · exact (h.request.mtx t).mpr ⟨_, rfl, rfl⟩
  · simp [Frame.line]
  · by_cases hd : d = c
    · subst hd
      right
      intro b k hv
      have hplace : (Frame.detaching raw (head ++ [d])).place d = .queued := by
        simp [Frame.place, hn.2.1.1]
      have hdet := hv.detach (by simp [Frame.place])
      simpa [hplace] using hdet
    · left
      simp [Frame.place, hd]

theorem inv_unlock {head : List CallbackId} (h : Inv s o)
    (htop : s.stack t = .detaching [] head :: rest) :
    Inv { s.setStack t (.invoking head :: rest) with mtx := none } (some (t, .invoking head)) := by
  refine h.request_step htop rfl rfl rfl rfl rfl rfl rfl rfl ?_ fun d => ?_
  · simp [Frame.line]
  · left
    simp [Frame.place]

theorem unlocked_of_top (h : Inv s o) (htop : s.stack t = f :: rest) (hf : f.requests = true)
    (hl : f.locks = false) : s.mtx = none := by
  obtain ⟨rfl, -, -, -, -⟩ := h.request.of_top htop hf
  cases hm : s.mtx with
  | none => rfl
  | some u =>
    obtain ⟨k, hk, hlock⟩ := (h.request.mtx u).mp hm
    cases hk
    rw [hl] at hlock
    cases hlock

theorem inv_choose {head : List CallbackId} (h : Inv s o)
    (htop : s.stack t = .invoking (c :: head) :: rest) (ho : (s.callback c).control.object = true) :
    Inv ((s.setCallback c fun cb =>
      { cb with control := { cb.control with running := true } }).setStack t
        (.chosen c head :: rest)) (some (t, .chosen c head)) := by
  have hmtx := unlocked_of_top h htop rfl rfl
  refine h.request_step htop rfl rfl rfl hmtx rfl rfl rfl rfl (List.Sublist.refl _)
    fun d => ?_
  by_cases hd : d = c
  · subst hd
    right
    intro b k hv
    have hch := hv.choose (by simp [Frame.place]) ho
    simpa [Frame.place] using hch
  · left
    simp [Frame.place, hd]

theorem inv_skip {head : List CallbackId} (h : Inv s o)
    (htop : s.stack t = .invoking (c :: head) :: rest)
    (ho : ¬((s.callback c).control.cancelled = false ∧ (s.callback c).control.object = true)) :
    Inv (s.setStack t (.finishing c head :: rest)) (some (t, .finishing c head)) := by
  have hmtx := unlocked_of_top h htop rfl rfl
  refine h.request_step htop rfl rfl rfl hmtx rfl rfl rfl rfl (List.Sublist.refl _)
    fun d => ?_
  by_cases hd : d = c
  · subst hd
    right
    intro b k hv
    have hsk := hv.skip (by simp [Frame.place]) ho
    simpa [Frame.place] using hsk
  · left
    simp [Frame.place, hd]

theorem inv_start {head : List CallbackId} (h : Inv s o)
    (htop : s.stack t = .chosen c head :: rest) :
    Inv ((s.setCallback c fun cb => { cb with started := cb.started ++ [t] }).setStack t
      (.running c head :: rest)) (some (t, .running c head)) := by
  have hmtx := unlocked_of_top h htop rfl rfl
  refine h.request_step htop rfl rfl rfl hmtx rfl rfl rfl rfl (List.Sublist.refl _)
    fun d => ?_
  by_cases hd : d = c
  · subst hd
    right
    intro b k hv
    have hst := hv.start (t := t) (by simp [Frame.place])
    simpa [Frame.place] using hst
  · left
    simp [Frame.place, hd]

theorem inv_end {head : List CallbackId} (h : Inv s o)
    (htop : s.stack t = .running c head :: rest) :
    Inv ((s.setCallback c fun cb => { cb with ended := cb.ended ++ [t] }).setStack t
      (.finishing c head :: rest)) (some (t, .finishing c head)) := by
  have hmtx := unlocked_of_top h htop rfl rfl
  refine h.request_step htop rfl rfl rfl hmtx rfl rfl rfl rfl (List.Sublist.refl _)
    fun d => ?_
  by_cases hd : d = c
  · subst hd
    right
    intro b k hv
    have hend := hv.end (by simp [Frame.place])
    simpa [Frame.place] using hend
  · left
    simp [Frame.place, hd]

theorem inv_finish {head : List CallbackId} (h : Inv s o)
    (htop : s.stack t = .finishing c head :: rest) :
    Inv ((s.setCallback c State.finish).setStack t (.invoking head :: rest))
      (some (t, .invoking head)) := by
  have hmtx := unlocked_of_top h htop rfl rfl
  obtain ⟨rfl, -, -, -, -⟩ := h.request.of_top htop rfl
  have hn := h.request.nodup_line
  simp only [Frame.line, List.nodup_cons] at hn
  refine h.request_step htop rfl rfl rfl hmtx rfl rfl rfl rfl (List.sublist_cons_self c head)
    fun d => ?_
  by_cases hd : d = c
  · subst hd
    right
    intro b k hv
    have hfin := hv.finish (by simp [Frame.place])
    simpa [Frame.place, hn.1] using hfin
  · left
    simp [Frame.place, hd]

theorem inv_requestReturn (h : Inv s o) (htop : s.stack t = .invoking [] :: rest) :
    Inv { s.setStack t rest with results := s.results ++ [true] } none := by
  have hmtx := unlocked_of_top h htop rfl rfl
  obtain ⟨rfl, hrest, hq, hstop, hnil⟩ := h.request.of_top htop rfl
  have hwon := h.request.won
  refine ⟨⟨?_, ?_, ?_, h.request.stop, h.request.emptied, ?_, ?_, ?_⟩, fun c => ?_⟩
  · exact h.request.sole.disown (fun u hu => ownedBy_other hu _) hrest
  · intro u
    simp [hmtx]
  · intro u f hu
    cases hu
  · simpa [hstop] using hwon
  · exact fun _ => hstop
  · simpa [lineOf] using (List.nodup_append.mp h.request.nodup).1
  · refine (h.lives c).other rfl ?_ ?_ rfl rfl ?_
    · rw [htop, List.filter_cons_of_neg (by simp [Frame.builds])]
    · rw [htop, List.filter_cons_of_neg (by simp [Frame.destroys])]
    · simp [placeOf, Frame.place, hnil]

theorem inv_request (h : Inv s o) (hstop : s.stopRequested = false) :
    Inv { s.setStack t (.detaching s.callbacks [] :: s.stack t) with
      stopRequested := true, mtx := some t, callbacks := [], requester := some t }
      (some (t, .detaching s.callbacks [])) := by
  have hq : s.requester = none := by simpa [hstop] using h.request.stop
  have ho : o = none := by
    rcases o with _ | ⟨u, f⟩
    · rfl
    · simp [h.request.requester u f rfl] at hq
  subst ho
  have hwon := h.request.won
  have hn := h.request.nodup
  have hsole := h.request.sole t
  simp only [hstop, lineOf, List.append_nil] at hwon hn
  refine ⟨⟨?_, ?_, ?_, rfl, fun _ => rfl, ?_, fun _ => rfl, ?_⟩, fun c => ?_⟩
  · refine h.request.sole.own (fun _ _ => rfl) ?_
    rw [List.filter_cons_of_pos rfl, hsole]
    rfl
  · intro u
    simp [Frame.locks]
  · intro u f hu
    cases hu
    rfl
  · simpa using hwon
  · simpa [lineOf, Frame.line] using hn
  · refine (h.lives c).keep rfl ?_ ?_ fun b d hv => ?_
    · rw [List.filter_cons_of_neg (by simp [Frame.builds])]
    · rw [List.filter_cons_of_neg (by simp [Frame.destroys])]
    · rw [hq] at hv
      by_cases hc : c ∈ s.callbacks
      · have hreq := hv.request (t := t) (.inl (by simp [placeOf, hc]))
        simpa [placeOf, Frame.place, hc] using hreq
      · have hreq := hv.request (t := t) (.inr (by simp [placeOf, hc]))
        simpa [placeOf, Frame.place, hc] using hreq

theorem inv_requestLost (h : Inv s o) (hstop : s.stopRequested = true) :
    Inv { s with results := s.results ++ [false] } o := by
  obtain ⟨hr, hl⟩ := h
  refine ⟨⟨hr.sole, hr.mtx, hr.requester, hr.stop, hr.emptied, ?_, fun _ => hstop, hr.nodup⟩, hl⟩
  simpa using hr.won

/-! ## All steps -/

theorem inv_advance (h : Inv s o) (hs : s.advance t = some s') : ∃ o', Inv s' o' := by
  unfold State.advance at hs
  split at hs
  · next c rest htop =>
    split_ifs at hs with hm
    cases hs
    unfold State.tryAddCallback
    by_cases hstop : s.stopRequested = true
    · simp only [hstop, if_true]
      exact ⟨o, inv_tooLate h htop⟩
    · simp only [hstop]
      exact ⟨o, inv_register h htop (by simpa using hstop)⟩
  · next c rest htop =>
    cases hs
    exact ⟨o, inv_startInline h htop⟩
  · next c raw head rest htop =>
    cases hs
    exact ⟨_, inv_detach h htop⟩
  · next head rest htop =>
    cases hs
    exact ⟨_, inv_unlock h htop⟩
  · next c head rest htop =>
    dsimp only at hs
    split_ifs at hs with hc
    · cases hs
      exact ⟨_, inv_choose h htop hc.2⟩
    · cases hs
      exact ⟨_, inv_skip h htop hc⟩
  · next rest htop =>
    cases hs
    exact ⟨_, inv_requestReturn h htop⟩
  · next c head rest htop =>
    cases hs
    exact ⟨_, inv_start h htop⟩
  · next c head rest htop =>
    cases hs
    exact ⟨_, inv_finish h htop⟩
  · next c rest htop =>
    split_ifs at hs with hm
    cases hs
    exact ⟨o, inv_remove h htop hm⟩
  · next c rest htop =>
    simp only [State.setCallback, Function.update_self, State.cancel] at hs
    split_ifs at hs with hc
    · cases hs
      exact ⟨o, inv_wait h htop hc.1 hc.2⟩
    · cases hs
      exact ⟨o, inv_cancelReturn h htop hc⟩
  · next c rest htop =>
    split_ifs at hs with hr
    cases hs
    exact ⟨o, inv_waitReturn h htop hr⟩
  · cases hs

theorem inv_ret (h : Inv s o) (hs : s.ret t = some s') : ∃ o', Inv s' o' := by
  unfold State.ret at hs
  split at hs
  · next c rest htop =>
    cases hs
    exact ⟨o, inv_endInline h htop⟩
  · next c head rest htop =>
    cases hs
    exact ⟨_, inv_end h htop⟩
  · cases hs

theorem inv_step (h : Inv s o) {l : Label} (hs : step s l = some s') : ∃ o', Inv s' o' := by
  cases l with
  | construct t c =>
    simp only [step, Option.ite_none_right_eq_some, Option.some.injEq] at hs
    obtain ⟨⟨-, hu⟩, rfl⟩ := hs
    exact ⟨o, inv_construct h hu⟩
  | destroy t c =>
    simp only [step, Option.ite_none_right_eq_some, Option.some.injEq] at hs
    obtain ⟨⟨-, hd⟩, rfl⟩ := hs
    exact ⟨o, inv_destroy h hd⟩
  | requestStop t =>
    simp only [step, Option.ite_none_right_eq_some, Option.some.injEq] at hs
    obtain ⟨-, rfl⟩ := hs
    by_cases hstop : s.stopRequested = true
    · rw [if_pos hstop]
      exact ⟨o, inv_requestLost h hstop⟩
    · rw [if_neg hstop]
      exact ⟨_, inv_request h (by simpa using hstop)⟩
  | advance t => exact inv_advance h hs
  | ret t => exact inv_ret h hs

end CCForge.StopSource
