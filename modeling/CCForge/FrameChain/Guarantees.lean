import CCForge.FrameChain.Model
import Mathlib.Data.List.Nodup

/-!
# A chain is destroyed from the leaf up

The first loop releases the owner of every frame below the root and turns each link back to the frame
above. The second loop then goes up and destroys.
-/

namespace CCForge.FrameChain

variable {s s' : State} {frames above : List FrameId} {f g child : FrameId}
  {abandonTaskChain : FrameId → State → Option State}

/-- Each frame awaits the next one. -/
def Linked (s : State) : List FrameId → Prop
  | [] => True
  | [f] => Leaf s f
  | f :: g :: below =>
    s.frames f = ⟨⟨some g, some g, some f, true⟩, some ⟨some g, some f, true⟩, true⟩ ∧
      Linked s (g :: below)

/-- Each frame has a link to the next one, and its awaitable owns nothing and belongs to it. -/
def Detached (s : State) : List FrameId → Prop
  | [] => True
  | f :: above => (s.frames f).alive = true ∧ (s.frames f).link.childFrame = above.head? ∧
      (s.frames f).link.childLink = above.head? ∧
      (∀ a, (s.frames f).awaitable = some a → a.task = none ∧ a.parent = some f) ∧ Detached s above

theorem Leaf.congr (h : Leaf s f) (hf : s'.frames f = s.frames f) : Leaf s' f := by
  rw [Leaf, hf]
  exact h

theorem Linked.congr (h : Linked s frames) (hframes : ∀ f ∈ frames, s'.frames f = s.frames f) :
    Linked s' frames := by
  induction frames with
  | nil => trivial
  | cons f below ih =>
    cases below with
    | nil => exact Leaf.congr h (hframes f List.mem_cons_self)
    | cons g below =>
      obtain ⟨hf, hbelow⟩ := h
      exact ⟨(hframes f List.mem_cons_self).trans hf,
        ih hbelow fun g hg => hframes g (List.mem_cons_of_mem _ hg)⟩

theorem Detached.congr (h : Detached s frames) (hframes : ∀ f ∈ frames, s'.frames f = s.frames f) :
    Detached s' frames := by
  induction frames with
  | nil => trivial
  | cons f above ih =>
    obtain ⟨halive, hframe, hlink, hawaitable, habove⟩ := h
    unfold Detached
    rw [hframes f List.mem_cons_self]
    exact ⟨halive, hframe, hlink, hawaitable, ih habove fun g hg => hframes g (List.mem_cons_of_mem _ hg)⟩

@[simp] theorem set_frames_self (s : State) (f : FrameId) (frame : Frame) :
    (s.set f frame).frames f = frame := by
  simp [State.set]

theorem set_frames_ne (frame : Frame) (h : g ≠ f) : (s.set f frame).frames g = s.frames g := by
  simp [State.set, h]

/-! ## Chains -/

/-- The chain up to a leaf, and the leaf. -/
theorem linked_append (h : Linked s (above ++ [f])) : Leaf s f := by
  induction above with
  | nil => exact h
  | cons g above ih =>
    cases above with
    | nil => exact h.2
    | cons g' above => exact ih h.2

/-- A frame that becomes linked to a leaf. -/
theorem Linked.extend (h : Linked s (above ++ [f])) (hnodup : (above ++ [f]).Nodup)
    (habove : ∀ g ∈ above, s'.frames g = s.frames g)
    (hf : s'.frames f = ⟨⟨some child, some child, some f, true⟩, some ⟨some child, some f, true⟩, true⟩)
    (hchild : Leaf s' child) : Linked s' (above ++ [f, child]) := by
  induction above with
  | nil => exact ⟨hf, hchild⟩
  | cons g above ih =>
    have hrest (h : Linked s (above ++ [f])) : Linked s' (above ++ [f, child]) :=
      ih h (List.nodup_cons.mp hnodup).2 fun g' hg' => habove g' (List.mem_cons_of_mem _ hg')
    cases above with
    | nil => exact ⟨(habove g List.mem_cons_self).trans h.1, hrest h.2⟩
    | cons g' above => exact ⟨(habove g List.mem_cons_self).trans h.1, hrest h.2⟩

/-- A chain without its leaf. -/
theorem Linked.shorten (h : Linked s (above ++ [f, child])) (habove : ∀ g ∈ above, s'.frames g = s.frames g)
    (hf : Leaf s' f) : Linked s' (above ++ [f]) := by
  induction above with
  | nil => exact hf
  | cons g above ih =>
    have hrest (h : Linked s (above ++ [f, child])) : Linked s' (above ++ [f]) :=
      ih h fun g' hg' => habove g' (List.mem_cons_of_mem _ hg')
    cases above with
    | nil => exact ⟨(habove g List.mem_cons_self).trans h.1, hrest h.2⟩
    | cons g' above => exact ⟨(habove g List.mem_cons_self).trans h.1, hrest h.2⟩

theorem awaitSuspend_coAwait (hf : Leaf s f) (h : awaitSuspend true (coAwait s f child) f = some s') :
    s'.frames f = ⟨⟨some child, some child, some f, true⟩, some ⟨some child, some f, true⟩, true⟩ ∧
      ∀ g, g ≠ f → s'.frames g = s.frames g := by
  obtain ⟨halive, -, -⟩ := hf
  simp [awaitSuspend, coAwait, State.setLink, halive] at h
  subst h
  refine ⟨by simp, fun g hg => ?_⟩
  rw [set_frames_ne _ hg, set_frames_ne _ hg, set_frames_ne _ hg]

theorem Chain.linked (h : Chain s frames) : frames.Nodup ∧ Linked s frames := by
  induction h with
  | root hleaf => exact ⟨List.nodup_singleton _, hleaf⟩
  | @await s s' above f child hchain hnew hchild hawait ih =>
    obtain ⟨hnodup, hlinked⟩ := ih
    obtain ⟨hf, hother⟩ := awaitSuspend_coAwait (linked_append hlinked) hawait
    have hne : child ≠ f := fun he => hnew (by simp [he])
    refine ⟨?_, hlinked.extend hnodup (fun g hg => hother g ?_) hf (hchild.congr (hother child hne))⟩
    · have hsplit : above ++ [f, child] = (above ++ [f]) ++ [child] := by simp
      rw [hsplit]
      exact List.nodup_append.mpr ⟨hnodup, List.nodup_singleton _, by
        rintro g hg h' hh' rfl
        exact hnew (List.mem_singleton.mp hh' ▸ hg)⟩
    · rintro rfl
      exact absurd hg ((List.nodup_append.mp hnodup).2.2 g · g (List.mem_singleton_self g) rfl)
  | @resume s s' above f child hchain habove hf ih =>
    obtain ⟨hnodup, hlinked⟩ := ih
    refine ⟨?_, hlinked.shorten habove hf⟩
    have hsplit : above ++ [f, child] = (above ++ [f]) ++ [child] := by simp
    rw [hsplit] at hnodup
    exact (List.nodup_append.mp hnodup).1
  | other hchain hframes ih => exact ⟨ih.1, ih.2.congr hframes⟩

/-! ## The first loop -/

/-- One round at the leaf. -/
theorem detach_leaf (fuel : ℕ) {done : List FrameId} (hf : Leaf s f) (hdone : Detached s done)
    (hnew : f ∉ done) : ∃ s', detach (fuel + 1) (some f) (some f) done.head? done.head? s =
      some (some f, some f, s') ∧ s'.log = s.log ∧ Detached s' (f :: done) ∧
      ∀ g, g ≠ f → s'.frames g = s.frames g := by
  obtain ⟨halive, hchild, hawaitable⟩ := hf
  refine ⟨s.set f { s.frames f with
    link := { (s.frames f).link with childFrame := done.head?, childLink := done.head? } }, ?_, rfl, ?_,
    fun g hg => set_frames_ne _ hg⟩
  · simp [detach, takeChild, turnBack, State.link?, State.setLink, halive, hchild]
  · refine ⟨by simpa using halive, by simp, by simp, by simp [hawaitable], hdone.congr fun g hg => ?_⟩
    exact set_frames_ne _ fun he => hnew (he ▸ hg)

/-- One round above the leaf. -/
theorem detach_parent (fuel : ℕ) {done : List FrameId}
    (hf : s.frames f = ⟨⟨some child, some child, some f, true⟩, some ⟨some child, some f, true⟩, true⟩)
    (hdone : Detached s done) (hnew : f ∉ done) :
    ∃ s', detach (fuel + 1) (some f) (some f) done.head? done.head? s =
        detach fuel (some child) (some child) (some f) (some f) s' ∧
      s'.log = s.log ++ [.released f] ∧ Detached s' (f :: done) ∧ ∀ g, g ≠ f → s'.frames g = s.frames g := by
  refine ⟨((s.set f ⟨⟨some child, some child, some f, true⟩, some ⟨none, some f, true⟩, true⟩).record
    (.released f)).set f ⟨⟨done.head?, done.head?, some f, true⟩, some ⟨none, some f, true⟩, true⟩,
    ?_, rfl, ?_, fun g hg => ?_⟩
  · simp [detach, takeChild, turnBack, State.link?, State.setLink, State.releaseOwned, State.abandon, hf,
      State.record, State.set]
  · refine ⟨by simp, by simp, by simp, by simp, hdone.congr fun g hg => ?_⟩
    have hne : g ≠ f := fun he => hnew (he ▸ hg)
    rw [set_frames_ne _ hne]
    exact set_frames_ne _ hne
  · rw [set_frames_ne _ hg]
    exact set_frames_ne _ hg

/-- The first loop releases every owner in the chain, from the root down. -/
theorem detach_spec {fuel : ℕ} (hfuel : frames.length ≤ fuel) (hne : frames ≠ []) {done : List FrameId}
    (hnodup : frames.Nodup) (hdisjoint : ∀ f ∈ frames, f ∉ done) (hlinked : Linked s frames)
    (hdone : Detached s done) :
    ∃ s', detach fuel frames.head? frames.head? done.head? done.head? s =
        some ((frames.reverse ++ done).head?, (frames.reverse ++ done).head?, s') ∧
      s'.log = s.log ++ frames.dropLast.map .released ∧ Detached s' (frames.reverse ++ done) ∧
      ∀ g, g ∉ frames → s'.frames g = s.frames g := by
  induction frames generalizing fuel done s with
  | nil => exact absurd rfl hne
  | cons f below ih =>
    obtain ⟨fuel, rfl⟩ : ∃ n, fuel = n + 1 := ⟨fuel - 1, by simp only [List.length_cons] at hfuel; omega⟩
    obtain ⟨hnew, hnodup⟩ := List.nodup_cons.mp hnodup
    have hfdone := hdisjoint f List.mem_cons_self
    cases below with
    | nil =>
      obtain ⟨s', hs', hlog, hdetached, hother⟩ := detach_leaf fuel hlinked hdone hfdone
      exact ⟨s', by simpa using hs', by simpa using hlog, hdetached, fun g hg => hother g (by simpa using hg)⟩
    | cons child below =>
      obtain ⟨hf, hbelow⟩ := hlinked
      obtain ⟨u, hu, hlog, hdetached, hother⟩ := detach_parent fuel hf hdone hfdone
      -- the round touched its own frame alone, so the rest of the chain is as it was
      have hbelow' : Linked u (child :: below) :=
        hbelow.congr fun g hg => hother g fun he => hnew (he ▸ hg)
      obtain ⟨s', hs', hlog', hdetached', hother'⟩ := ih
        (show (child :: below).length ≤ fuel by simpa using hfuel) (List.cons_ne_nil _ _) hnodup (by
          intro g hg hmem
          rcases List.mem_cons.mp hmem with rfl | hmem
          · exact hnew hg
          · exact hdisjoint g (List.mem_cons_of_mem _ hg) hmem) hbelow' hdetached
      refine ⟨s', ?_, ?_, ?_, fun g hg => ?_⟩
      · rw [List.head?_cons, hu]
        simpa using hs'
      · rw [hlog', hlog, List.dropLast_cons_cons, List.map_cons, List.append_assoc]
        rfl
      · simpa using hdetached'
      · rw [hother' g fun hmem => hg (List.mem_cons_of_mem _ hmem),
          hother g fun he => hg (he ▸ List.mem_cons_self)]

/-! ## The second loop -/

/-- Destroying a detached frame touches no other. -/
theorem destroy_detached (abandonTaskChain : FrameId → State → Option State)
    (h : Detached s (f :: above)) : ∃ s', destroy abandonTaskChain s f = some s' ∧
    s'.log = s.log ++ [.destroyed f] ∧ (s'.frames f).alive = false ∧
    ∀ g, g ≠ f → s'.frames g = s.frames g := by
  obtain ⟨halive, -, -, hawaitable, -⟩ := h
  cases ha : (s.frames f).awaitable with
  | none =>
    refine ⟨(s.set f { s.frames f with alive := false }).record (.destroyed f), ?_, rfl, ?_, fun g hg => ?_⟩
    · simp [destroy, halive, ha]
    · simp [State.record]
    · exact set_frames_ne _ hg
  | some awaitable =>
    obtain ⟨htask, hparent⟩ := hawaitable awaitable ha
    cases hregistered : awaitable.registered with
    | false =>
      refine ⟨(s.set f { s.frames f with alive := false }).record (.destroyed f), ?_, rfl, ?_, fun g hg => ?_⟩
      · simp [destroy, destroyAwaitable, halive, ha, htask, hregistered]
      · simp [State.record]
      · exact set_frames_ne _ hg
    | true =>
      -- the destructor resets the link of its own frame, which is still there
      refine ⟨((s.set f { s.frames f with link := {} }).set f
        { s.frames f with link := {}, alive := false }).record (.destroyed f), ?_, rfl, ?_, fun g hg => ?_⟩
      · simp [destroy, destroyAwaitable, halive, ha, htask, hregistered, hparent, State.resetChild,
          State.setLink]
      · simp [State.record]
      · exact (set_frames_ne _ hg).trans (set_frames_ne _ hg)

theorem destroyDetached_spec (abandonTaskChain : FrameId → State → Option State) {fuel : ℕ}
    {done : List FrameId} (hfuel : done.length ≤ fuel) (hnodup : done.Nodup) (h : Detached s done) :
    ∃ s', destroyDetached abandonTaskChain fuel done.head? done.head? s = some s' ∧
      s'.log = s.log ++ done.map .destroyed ∧ (∀ f ∈ done, (s'.frames f).alive = false) ∧
      ∀ g, g ∉ done → s'.frames g = s.frames g := by
  induction done generalizing fuel s with
  | nil =>
    refine ⟨s, ?_, by simp, by simp, fun _ _ => rfl⟩
    unfold destroyDetached
    rfl
  | cons f above ih =>
    obtain ⟨fuel, rfl⟩ : ∃ n, fuel = n + 1 := ⟨fuel - 1, by simp only [List.length_cons] at hfuel; omega⟩
    obtain ⟨hnew, hnodup⟩ := List.nodup_cons.mp hnodup
    obtain ⟨u, hu, hlog, hdead, hother⟩ := destroy_detached abandonTaskChain h
    -- what the loop needs of the frame was read before it is destroyed
    obtain ⟨halive, hframe, hlink, -, habove⟩ := h
    have habove' : Detached u above := habove.congr fun g hg => hother g fun he => hnew (he ▸ hg)
    have hfuel' : above.length ≤ fuel := by simpa using hfuel
    obtain ⟨s', hs', hlog', hdead', hother'⟩ := ih hfuel' hnodup habove'
    refine ⟨s', ?_, ?_, ?_, ?_⟩
    · simp only [List.head?_cons, destroyDetached, frameBefore, State.link?, if_pos halive, Option.map_some,
        Option.bind_some, hframe, hlink, hu, hs']
    · rw [hlog', hlog, List.map_cons, List.append_assoc]
      rfl
    · intro g hg
      rcases List.mem_cons.mp hg with rfl | hg
      · rw [hother' g hnew]
        exact hdead
      · exact hdead' g hg
    · intro g hg
      rw [hother' g fun hmem => hg (List.mem_cons_of_mem _ hmem),
        hother g fun he => hg (he ▸ List.mem_cons_self)]

/-! ## The whole chain -/

theorem Chain.ne_nil (h : Chain s frames) : frames ≠ [] := by
  induction h with
  | root hleaf => exact List.cons_ne_nil _ _
  | await hchain hnew hchild hawait ih => simp
  | resume hchain habove hf ih => simp
  | other hchain hframes ih => exact ih

/-- A chain that tasks awaiting tasks made comes down in as many rounds as it has frames. Every owner
is released before any frame is destroyed, the frames are destroyed from the leaf up, each once, and
no destructor finds a frame to abandon. -/
theorem destroyFrameChain_chain (abandonTaskChain : FrameId → State → Option State) {fuel : ℕ}
    (h : Chain s frames) (hfuel : frames.length ≤ fuel) :
    ∃ s', destroyFrameChain abandonTaskChain fuel frames.head? frames.head? s = some s' ∧
      s'.log = s.log ++ frames.dropLast.map .released ++ frames.reverse.map .destroyed ∧
      frames.Nodup ∧ (∀ f ∈ frames, (s'.frames f).alive = false) ∧
      ∀ g, g ∉ frames → s'.frames g = s.frames g := by
  obtain ⟨hnodup, hlinked⟩ := h.linked
  obtain ⟨u, hu, hlog, hdetached, hother⟩ := detach_spec hfuel h.ne_nil hnodup
    (fun _ _ => List.not_mem_nil) hlinked (show Detached s [] from trivial)
  rw [List.append_nil] at hu hdetached
  obtain ⟨s', hs', hlog', hdead, hother'⟩ := destroyDetached_spec abandonTaskChain
    (show frames.reverse.length ≤ fuel by simpa using hfuel) (List.nodup_reverse.mpr hnodup) hdetached
  refine ⟨s', ?_, by rw [hlog', hlog], hnodup, fun f hf => hdead f (List.mem_reverse.mpr hf), fun g hg => ?_⟩
  · rw [destroyFrameChain]
    simp only [List.head?_nil] at hu
    rw [hu, Option.bind_some]
    exact hs'
  · rw [hother' g fun hmem => hg (List.mem_reverse.mp hmem), hother g hg]

/-- Three frames. -/
theorem destroyFrameChain_chain_three : ∃ s s', Chain s [0, 1, 2] ∧
    destroyFrameChain (fun _ _ => none) 3 (some 0) (some 0) s = some s' ∧
    s'.log = [.released 0, .released 1, .destroyed 2, .destroyed 1, .destroyed 0] := by
  have hroot : Chain { frames := fun _ => {} } [0] := .root ⟨rfl, rfl, rfl⟩
  have htwo : Chain _ [0, 1] := @Chain.await _ _ [] 0 1 hroot (by decide) ⟨rfl, rfl, rfl⟩ rfl
  have hthree : Chain _ [0, 1, 2] := @Chain.await _ _ [0] 1 2 htwo (by decide) ⟨rfl, rfl, rfl⟩ rfl
  obtain ⟨s', hs', hlog, -⟩ := destroyFrameChain_chain (fun _ _ => none) hthree (Nat.le_refl 3)
  exact ⟨_, s', hthree, hs', hlog⟩

end CCForge.FrameChain
