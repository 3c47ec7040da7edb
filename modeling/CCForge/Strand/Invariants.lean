import CCForge.Strand.Sections

/-!
# The invariant of a strand

At most one frame over all threads holds the turn. The records pass through the
strand in one line: returned, being completed, in the hand of the holder, deferred,
queued. Every step either leaves the line alone, appends to its end or moves the
boundary between two neighbouring parts.
-/

namespace CCForge.Strand

/-- What the holder of the turn, if there is one, contributes to the line. -/
def ofHolder (g : Frame → List RecordId) : Option (ThreadId × Frame) → List RecordId
  | some (_, f) => g f
  | none => []

/-- A runner is under way, or a thread has committed to launching one. -/
def Underway (s : State) : Prop := 0 < s.outstanding ∨ Somewhere Frame.commits s.stack

structure Inv (s : State) (o : Option (ThreadId × Frame)) : Prop where
  ok : s.shared.Ok
  sole : Sole Frame.holds s.stack o
  active : s.shared.active = o.isSome
  line : s.enqueued = s.returned ++ ofHolder Frame.current o ++ ofHolder Frame.hand o ++
    s.shared.deferredStopped ++ s.shared.queue
  begun : s.begun.map Prod.fst = s.returned ++ ofHolder Frame.current o
  nodup : s.enqueued.Nodup
  done : ∀ r, s.done r = true ↔ r ∈ s.begun.map Prod.fst
  signal : ∀ r sig, (r, sig) ∈ s.begun →
    (sig = .value ↔ (r, false) ∈ s.taken ∧ s.stopOnly r = false)
  taken : ∀ r c, (r, c) ∈ s.taken → c = false ∧
    (r ∈ s.begun.map Prod.fst ∨ ∃ t, o = some (t, .turn r))
  inHand : ∀ t r, o = some (t, .turn r) → (r, false) ∈ s.taken
  underway : s.shared.queue ≠ [] → s.shared.active = false → Underway s

variable {s : State} {o : Option (ThreadId × Frame)} {t : ThreadId}

/-- A frame that holds the turn can be exchanged without losing a commitment. -/
theorem commits_below {f : Frame} {rest : List Frame} (new : List Frame) (hf : f.holds = true)
    (h : ∃ x ∈ f :: rest, x.commits = true) : ∃ x ∈ new ++ rest, x.commits = true := by
  obtain ⟨x, hx, hc⟩ := h
  rcases List.mem_cons.mp hx with rfl | hx
  · cases x <;> simp_all [Frame.holds, Frame.commits]
  · exact ⟨x, List.mem_append_right new hx, hc⟩

theorem inv_initial : Inv {} none := by
  refine ⟨⟨?_, ?_, ?_, ?_, ?_⟩, ?_, ?_, ?_, ?_, ?_, ?_, ?_, ?_, ?_, ?_⟩ <;>
    simp [Sole, ofHolder]

theorem Inv.begun_prefix (h : Inv s o) : s.begun.map Prod.fst <+: s.enqueued := by
  rw [h.line, h.begun]
  simp only [List.append_assoc]
  rw [← List.append_assoc]
  exact List.prefix_append _ _

theorem Inv.mem_of_begun (h : Inv s o) {r : RecordId} {sig : Signal} (hr : (r, sig) ∈ s.begun) :
    r ∈ s.enqueued :=
  h.begun_prefix.subset (List.mem_map_of_mem hr)

/-- Only the stack of `t` and the number of runners change, and no frame that holds the
turn comes or goes. -/
theorem Inv.restack (h : Inv s o) {new : List Frame} {n : ℕ}
    (hn : new.filter Frame.holds = (s.stack t).filter Frame.holds)
    (hu : Underway s → Underway { s.setStack t new with outstanding := n }) :
    Inv { s.setStack t new with outstanding := n } o :=
  ⟨h.ok, h.sole.keep hn, h.active, h.line, h.begun, h.nodup, h.done, h.signal, h.taken, h.inHand,
    fun hq ha => hu (h.underway hq ha)⟩

/-- The record in hand of the holder begins its completion. -/
theorem Inv.begins {f g : Frame} {rest : List Frame} {r : RecordId} {sig : Signal}
    (h : Inv s o) (hs : s.stack t = f :: rest) (hf : f.holds = true) (hg : g.holds = true)
    (hcur : f.current = []) (hhand : f.hand = r :: g.hand) (hgcur : g.current = [r])
    (hsig : sig = .value ↔ (r, false) ∈ s.taken ∧ s.stopOnly r = false)
    (hturn : ∀ r', f = .turn r' → r' = r) (hgturn : ∀ r', g ≠ .turn r') :
    Inv ((s.complete r sig).setStack t (g :: rest)) (some (t, g)) := by
  obtain ⟨ho, hrest⟩ := h.sole.of_top hs hf
  subst ho
  have hline := h.line
  have hbegun := h.begun
  simp only [ofHolder, hcur, hhand, List.append_nil] at hline hbegun
  have hnot : r ∉ s.begun.map Prod.fst := by
    have hn := h.nodup
    rw [hline, ← hbegun] at hn
    simp only [List.append_assoc, List.cons_append] at hn
    intro hr
    exact (List.nodup_append.mp hn).2.2 r hr r (by simp) rfl
  have hdone : s.done r = false := by
    by_contra hd
    exact hnot ((h.done r).mp (by simpa using hd))
  have he : s.complete r sig =
      { s with done := Function.update s.done r true, begun := s.begun ++ [(r, sig)] } := by
    simp [State.complete, hdone]
  rw [he]
  refine ⟨h.ok, ?_, ?_, ?_, ?_, h.nodup, ?_, ?_, ?_, ?_, ?_⟩
  · refine h.sole.own (fun u hu => ownedBy_other hu f) ?_
    rw [List.filter_cons_of_pos hg, hrest]
  · rw [State.setStack, h.active]
    rfl
  · simp only [State.setStack, ofHolder, hgcur]
    rw [hline]
    simp
  · simp only [State.setStack, ofHolder, hgcur, List.map_append, List.map_cons, List.map_nil]
    rw [hbegun]
  · intro r'
    by_cases hr : r' = r
    · subst hr
      simp
    · simp only [State.setStack, Function.update_of_ne hr, List.map_append, List.mem_append]
      simp [h.done r', hr]
  · intro r' sig' hm
    rcases List.mem_append.mp hm with hm | hm
    · exact h.signal r' sig' hm
    · simp only [List.mem_singleton, Prod.mk.injEq] at hm
      rw [hm.1, hm.2]
      exact hsig
  · intro r' c hm
    obtain ⟨hc, hm | ⟨u, hu⟩⟩ := h.taken r' c hm
    · refine ⟨hc, .inl ?_⟩
      simp only [State.setStack, List.map_append, List.mem_append]
      exact .inl hm
    · simp only [Option.some.injEq, Prod.mk.injEq] at hu
      refine ⟨hc, .inl ?_⟩
      simp [hturn r' hu.2]
  · intro u r' hu
    simp only [Option.some.injEq, Prod.mk.injEq] at hu
    exact absurd hu.2 (hgturn r')
  · intro hq ha
    rcases h.underway hq ha with hu | hu
    · exact .inl hu
    · refine .inr (hu.keep ?_)
      rw [hs]
      exact commits_below [g] hf

/-- The completion of a record returns to the holder. -/
theorem Inv.returns {f g : Frame} {rest : List Frame} {r : RecordId} (h : Inv s o)
    (hs : s.stack t = f :: rest) (hf : f.holds = true) (hg : g.holds = true)
    (hcur : f.current = [r]) (hgcur : g.current = []) (hhand : g.hand = f.hand)
    (hturn : ∀ r', f ≠ .turn r') (hgturn : ∀ r', g ≠ .turn r') :
    Inv { s.setStack t (g :: rest) with returned := s.returned ++ [r] } (some (t, g)) := by
  obtain ⟨ho, hrest⟩ := h.sole.of_top hs hf
  subst ho
  have hline := h.line
  have hbegun := h.begun
  simp only [ofHolder, hcur] at hline hbegun
  refine ⟨h.ok, ?_, ?_, ?_, ?_, h.nodup, h.done, h.signal, ?_, ?_, ?_⟩
  · refine h.sole.own (fun u hu => ownedBy_other hu f) ?_
    rw [List.filter_cons_of_pos hg, hrest]
  · rw [State.setStack, h.active]
    rfl
  · simp only [State.setStack, ofHolder, hgcur, hhand, List.append_nil]
    exact hline
  · simp only [State.setStack, ofHolder, hgcur, List.append_nil]
    exact hbegun
  · intro r' c hm
    obtain ⟨hc, hm | ⟨u, hu⟩⟩ := h.taken r' c hm
    · exact ⟨hc, .inl hm⟩
    · simp only [Option.some.injEq, Prod.mk.injEq] at hu
      exact absurd hu.2 (hturn r')
  · intro u r' hu
    simp only [Option.some.injEq, Prod.mk.injEq] at hu
    exact absurd hu.2 (hgturn r')
  · intro hq ha
    rcases h.underway hq ha with hu | hu
    · exact .inl hu
    · refine .inr (hu.keep ?_)
      rw [hs]
      exact commits_below [g] hf

/-- The entries that a section adds to `taken`. -/
theorem mem_taken {frames : List Frame} {c c' : Bool} {r : RecordId}
    (h : (r, c') ∈ takenBy c frames) :
    .turn r ∈ frames ∧ c' = c := by
  obtain ⟨f, hf, he⟩ := List.mem_filterMap.mp h
  cases f with
  | turn r' =>
    simp only [Option.some.injEq, Prod.mk.injEq] at he
    exact ⟨by rw [← he.1]; exact hf, he.2.symm⟩
  | _ => simp at he

theorem turn_not_mem {frames : List Frame} (h : frames.filter Frame.holds = []) (r : RecordId) :
    .turn r ∉ frames := by
  intro hm
  have hf := List.filter_eq_nil_iff.mp h _ hm
  exact hf rfl

/-- A section entered by a thread whose turn it is not. -/
theorem Inv.visit (h : Inv s o) {p : Shared × List Frame} {new : List RecordId}
    {rest : List Frame} (so : RecordId → Bool) (n : ℕ) (hv : s.shared.Visit p new)
    (hrest : rest.filter Frame.holds = (s.stack t).filter Frame.holds)
    (hnew : (s.enqueued ++ new).Nodup) (hso : ∀ r ∈ s.enqueued, so r = s.stopOnly r)
    (hu : p.1.queue ≠ [] → p.1.active = false →
      Underway ({ s with stopOnly := so, enqueued := s.enqueued ++ new,
                         outstanding := n }.unlock t rest p)) :
    ∃ o', Inv ({ s with stopOnly := so, enqueued := s.enqueued ++ new,
                        outstanding := n }.unlock t rest p) o' := by
  have hsignal : ∀ more : List (RecordId × Bool), (∀ x ∈ more, x.1 ∉ s.begun.map Prod.fst) →
      ∀ r sig, (r, sig) ∈ s.begun → (sig = .value ↔ (r, false) ∈ s.taken ++ more ∧ so r = false) := by
    intro more hmore r sig hr
    have hnot : (r, false) ∉ more := fun hm => hmore _ hm (List.mem_map_of_mem hr)
    rw [h.signal r sig hr, hso r (h.mem_of_begun hr), List.mem_append]
    simp [hnot]
  rcases hv.frames with ⟨f, hp, hf, hcur, hact⟩ | ⟨hp, hhand⟩
  · -- the strand was idle and the caller takes the turn
    have hidle : s.shared.active = false := by
      by_contra hne
      have hbusy := (hv.busy (by simpa using hne)).2
      rw [hp] at hbusy
      cases hbusy
    have ho : o = none := by simpa [hidle] using h.active
    subst ho
    have hrecords := hv.records
    rw [hp] at hrecords
    have hline := h.line
    have hbegun := h.begun
    simp only [ofHolder, List.append_nil] at hline hbegun
    simp only [List.flatMap_cons, List.flatMap_nil, List.append_nil] at hrecords
    have htaken : ∀ r c, (r, c) ∈ takenBy s.shared.closed p.2 → c = false ∧ f = .turn r := by
      intro r c hm
      obtain ⟨hm, hc⟩ := mem_taken hm
      have hfr : f = .turn r := by
        rw [hp] at hm
        exact (List.mem_singleton.mp hm).symm
      exact ⟨by rw [hc, hv.taken r hm], hfr⟩
    refine ⟨some (t, f), hv.ok, ?_, ?_, ?_, ?_, hnew, h.done, ?_, ?_, ?_, hu⟩
    · refine h.sole.own (fun _ _ => rfl) ?_
      rw [hp, List.singleton_append, List.filter_cons_of_pos hf, hrest, h.sole t]
      rfl
    · simpa using hact
    · simp only [State.unlock, State.setStack, ofHolder, hcur, List.append_nil]
      rw [hline, List.append_assoc, List.append_assoc, List.append_assoc, List.append_assoc,
        ← List.append_assoc f.hand, hrecords, List.append_assoc]
    · simp only [State.unlock, State.setStack, ofHolder, hcur, List.append_nil]
      exact hbegun
    · apply hsignal
      intro x hx hb
      obtain ⟨-, hfr⟩ := htaken x.1 x.2 hx
      rw [hfr] at hrecords
      -- a record in hand is behind the ones that have begun
      rw [hline, ← hbegun] at hnew
      simp only [List.append_assoc] at hnew hrecords
      rw [← hrecords] at hnew
      exact (List.nodup_append.mp hnew).2.2 x.1 hb x.1 (by simp [Frame.hand]) rfl
    · intro r c hm
      rcases List.mem_append.mp hm with hm | hm
      · obtain ⟨hc, hb | ⟨u, hu⟩⟩ := h.taken r c hm
        · exact ⟨hc, .inl hb⟩
        · cases hu
      · obtain ⟨hc, hfr⟩ := htaken r c hm
        exact ⟨hc, .inr ⟨t, by rw [hfr]⟩⟩
    · intro u r hur
      simp only [Option.some.injEq, Prod.mk.injEq] at hur
      have hm : Frame.turn r ∈ p.2 := by simp [hp, hur.2]
      refine List.mem_append_right _ (List.mem_filterMap.mpr ⟨_, hm, ?_⟩)
      simp [hv.taken r hm]
  · -- nobody takes the turn
    have hflat : p.2.flatMap Frame.hand = [] := by simpa using hhand
    have hnone : takenBy s.shared.closed p.2 = [] := by
      rw [List.eq_nil_iff_forall_not_mem]
      exact fun x hx => turn_not_mem hp x.1 (mem_taken hx).1
    have hrecords := hv.records
    rw [hflat, List.nil_append] at hrecords
    refine ⟨o, hv.ok, ?_, ?_, ?_, h.begun, hnew, h.done, ?_, ?_, ?_, hu⟩
    · refine h.sole.keep ?_
      rw [List.filter_append, hp, List.nil_append]
      exact hrest
    · rw [State.unlock, hv.idle hp]
      exact h.active
    · simp only [State.unlock, State.setStack]
      rw [h.line]
      simp only [List.append_assoc]
      rw [← List.append_assoc s.shared.deferredStopped, ← hrecords]
    · simp only [State.unlock, hnone]
      exact hsignal [] (by simp)
    · simp only [State.unlock, hnone, List.append_nil]
      exact h.taken
    · simp only [State.unlock, hnone, List.append_nil]
      exact h.inHand

/-- The section at the end of a turn. -/
theorem Inv.handback (h : Inv s o) {p : Shared × List Frame} {f : Frame} {rest : List Frame}
    (hs : s.stack t = f :: rest) (hf : f.holds = true) (hcur : f.current = [])
    (hhand : f.hand = []) (hturn : ∀ r, f ≠ .turn r) (hv : s.shared.Handback p)
    (hgo : ∀ r, .turn r ∉ p.2)
    (hu : p.1.queue ≠ [] → p.1.active = false → Underway (s.unlock t rest p)) :
    ∃ o', Inv (s.unlock t rest p) o' := by
  obtain ⟨ho, hrest⟩ := h.sole.of_top hs hf
  subst ho
  have hline := h.line
  have hbegun := h.begun
  have hrecords := hv.records
  simp only [ofHolder, hcur, hhand, List.append_nil] at hline hbegun
  simp only [List.append_nil] at hrecords
  have hnone : takenBy s.shared.closed p.2 = [] := by
    rw [List.eq_nil_iff_forall_not_mem]
    exact fun x hx => hgo x.1 (mem_taken hx).1
  have hother : ∀ u, u ≠ t → ownedBy (some (t, f)) u = [] := fun u hu => ownedBy_other hu f
  have htaken : ∀ r c, (r, c) ∈ s.taken → c = false ∧ r ∈ s.begun.map Prod.fst := by
    intro r c hm
    obtain ⟨hc, hb | ⟨u, hu⟩⟩ := h.taken r c hm
    · exact ⟨hc, hb⟩
    · simp only [Option.some.injEq, Prod.mk.injEq] at hu
      exact absurd hu.2 (hturn r)
  rcases hv.frames with ⟨g, hp, hg, hgcur, hact⟩ | ⟨hp, hgh⟩
  · rw [hp] at hrecords
    simp only [List.flatMap_cons, List.flatMap_nil, List.append_nil] at hrecords
    refine ⟨some (t, g), hv.ok, ?_, ?_, ?_, ?_, h.nodup, h.done, ?_, ?_, ?_, hu⟩
    · refine h.sole.own hother ?_
      rw [hp, List.singleton_append, List.filter_cons_of_pos hg, hrest]
    · simpa using hact
    · simp only [State.unlock, State.setStack, ofHolder, hgcur, List.append_nil]
      rw [hline, List.append_assoc, List.append_assoc, List.append_assoc,
        ← List.append_assoc g.hand, hrecords]
    · simp only [State.unlock, State.setStack, ofHolder, hgcur, List.append_nil]
      exact hbegun
    · simp only [State.unlock, hnone, List.append_nil]
      exact h.signal
    · simp only [State.unlock, hnone, List.append_nil]
      exact fun r c hm => ⟨(htaken r c hm).1, .inl (htaken r c hm).2⟩
    · intro u r hur
      simp only [Option.some.injEq, Prod.mk.injEq] at hur
      exact absurd (by simp [hp, hur.2]) (hgo r)
  · have hflat : p.2.flatMap Frame.hand = [] := by simpa using hgh
    rw [hflat, List.nil_append] at hrecords
    refine ⟨none, hv.ok, ?_, ?_, ?_, ?_, h.nodup, h.done, ?_, ?_, ?_, hu⟩
    · refine h.sole.disown hother ?_
      rw [List.filter_append, hp, hrest, List.nil_append]
    · rw [State.unlock, hv.idle hp]
      rfl
    · simp only [State.unlock, State.setStack, ofHolder, List.append_nil]
      rw [hline, List.append_assoc, List.append_assoc, hrecords]
    · simp only [State.unlock, State.setStack, ofHolder, List.append_nil]
      exact hbegun
    · simp only [State.unlock, hnone, List.append_nil]
      exact h.signal
    · simp only [State.unlock, hnone, List.append_nil]
      exact fun r c hm => ⟨(htaken r c hm).1, .inl (htaken r c hm).2⟩
    · intro u r hur
      cases hur

end CCForge.Strand
