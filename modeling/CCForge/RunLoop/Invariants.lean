import CCForge.RunLoop.Model

/-!
# The invariant of the run loop

The pushed nodes form one line: those popped, then those waiting, which are what
the links lead through from the head. Every node whose receiver has not been called
exists. The popped nodes by number are those executed and those in the hands of a
call of `run`.
-/

namespace CCForge.RunLoop

variable {n : ℕ} {s s' : State n} {t : NodeId} {c : Fin n}

/-- The number of the node that a call has popped and not executed. -/
def Caller.unexecuted : Caller → Multiset ℕ
  | .popped k _ => {k}
  | _ => 0

/-- The number of the node for which a call has still to decrement. -/
def Caller.undecremented : Caller → Multiset ℕ
  | .popped k _ | .calling k | .decrementing k => {k}
  | _ => 0

structure Inv (s : State n) : Prop where
  fault : s.fault = false
  line : s.pushed = s.popped ++ s.waiting
  chain : Chain s.next s.head s.waiting
  tail : s.tail = s.waiting.getLast?
  nodup : s.waiting.Nodup
  alive : ∀ t, s.InUse t → s.heap t ≠ none
  numbers : Multiset.range s.popped.length =
    (s.executed.map Prod.fst : List ℕ) + total Caller.unexecuted s.caller
  inHand : ∀ c k t, s.caller c = .popped k t → s.popped[k]? = some t
  executed : ∀ k t sig, (k, t, sig) ∈ s.executed → s.popped[k]? = some t
  count : s.taskCount =
    s.waiting.length + Multiset.card (total Caller.undecremented s.caller)

theorem inv_initial : Inv ({} : State n) := by
  have hz : ∀ g : Caller → Multiset ℕ, g .outside = 0 →
      total g ({} : State n).caller = 0 := fun g hg => total_of_zero fun _ => hg
  refine ⟨rfl, rfl, rfl, rfl, List.nodup_nil, ?_, ?_, ?_, ?_, ?_⟩
  · rintro t (ht | ⟨c, hc⟩)
    · cases ht
    · cases hc
  · rw [hz _ rfl]
    rfl
  · intro c k t hc
    cases hc
  · intro k t sig hm
    cases hm
  · rw [hz _ rfl]
    rfl

/-! ## Users of the loop -/

/-- A change of the heap that leaves the nodes of the loop alone. -/
theorem Inv.heap (h : Inv s) {heap : NodeId → Option Node}
    (hk : ∀ t, s.InUse t → heap t = s.heap t) : Inv { s with heap := heap } := by
  refine { h with chain := ?_, alive := ?_ }
  · have hc : Chain s.next s.head s.waiting := h.chain
    refine hc.congr ?_
    intro t ht
    simp only [State.next]
    rw [hk t (.inl ht)]
  · intro t ht
    rw [show ({ s with heap := heap } : State n).heap t = heap t from rfl, hk t ht]
    exact h.alive t ht

theorem Inv.construct (h : Inv s) (ht : s.heap t = none) :
    Inv { s with heap := Function.update s.heap t (some {}) } := by
  refine h.heap fun u hu => Function.update_of_ne ?_ _ _
  rintro rfl
  exact h.alive u hu ht

theorem Inv.destroy (h : Inv s) (ht : ¬s.InUse t) :
    Inv { s with heap := Function.update s.heap t none } := by
  refine h.heap fun u hu => Function.update_of_ne ?_ _ _
  rintro rfl
  exact ht hu

/-! ## Pushing -/

theorem setNext_of_alive {x : Option NodeId} (ht : s.heap t ≠ none) :
    s.setNext t x = { s with heap := Function.update s.heap t (some { next := x }) } := by
  unfold State.setNext
  cases h : s.heap t with
  | none => exact absurd h ht
  | some node => rfl

/-- What `push` writes when the node and the last node exist. -/
theorem push_eq (ht : s.heap t ≠ none) (hu : ∀ u, s.tail = some u → s.heap u ≠ none ∧ u ≠ t) :
    ∃ heap, s.push t = { s with
        heap := heap, head := if s.tail = none then some t else s.head, tail := some t,
        taskCount := s.taskCount + 1, pushed := s.pushed ++ [t] } ∧
      heap t = some { next := none } ∧
      (∀ u, s.tail = some u → heap u = some { next := some t }) ∧
      ∀ x, x ≠ t → s.tail ≠ some x → heap x = s.heap x := by
  unfold State.push
  rw [setNext_of_alive ht]
  cases htail : s.tail with
  | none =>
    refine ⟨Function.update s.heap t (some { next := none }), by simp, by simp, by simp, ?_⟩
    intro x hx _
    exact Function.update_of_ne hx _ _
  | some u =>
    obtain ⟨halive, hne⟩ := hu u htail
    obtain ⟨node, hnode⟩ := Option.ne_none_iff_exists'.mp halive
    refine ⟨Function.update (Function.update s.heap t (some { next := none })) u
      (some { next := some t }), ?_, ?_, ?_, ?_⟩
    · simp [State.setNext, Function.update_of_ne hne, hnode]
    · rw [Function.update_of_ne (Ne.symm hne), Function.update_self]
    · intro v hv
      cases hv
      exact Function.update_self _ _ _
    · intro x hx hxu
      rw [Function.update_of_ne (fun he => hxu (by rw [he])), Function.update_of_ne hx]

theorem Inv.tail_alive (h : Inv s) (hf : ¬s.InUse t) (u : NodeId) (hu : s.tail = some u) :
    s.heap u ≠ none ∧ u ≠ t := by
  have hm : u ∈ s.waiting := List.mem_of_getLast? (by rw [← h.tail, hu])
  refine ⟨h.alive u (.inl hm), ?_⟩
  rintro rfl
  exact hf (.inl hm)

theorem Inv.push (h : Inv s) (ht : s.heap t ≠ none) (hf : ¬s.InUse t) : Inv (s.push t) := by
  obtain ⟨heap, he, hheap, hlast, hkeep⟩ := push_eq ht (h.tail_alive hf)
  have hnot : t ∉ s.waiting := fun hm => hf (.inl hm)
  rw [he]
  have hpushed : s.pushed ++ [t] = s.popped ++ (s.waiting ++ [t]) := by
    rw [← List.append_assoc, ← h.line]
  have hwaiting : (s.pushed ++ [t]).drop s.popped.length = s.waiting ++ [t] := by
    rw [hpushed, List.drop_left]
  refine ⟨h.fault, ?_, ?_, ?_, ?_, ?_, h.numbers, h.inHand, h.executed, ?_⟩
  · rw [State.waiting, hwaiting]
    exact hpushed
  · simp only [State.waiting, hwaiting]
    have hhead : (if s.tail = none then some t else s.head) = s.waiting.head?.or (some t) := by
      rw [h.tail, h.chain.head]
      cases s.waiting <;> simp
    rw [hhead]
    refine h.chain.snoc h.nodup ?_ ?_ ?_
    · intro u hu
      simp only [State.next]
      rw [hlast u (by rw [h.tail, hu])]
      rfl
    · intro u hu hne
      simp only [State.next]
      rw [hkeep u (fun hut => hnot (hut ▸ hu)) (by rwa [h.tail])]
    · simp only [State.next]
      rw [hheap]
      rfl
  · simp only [State.waiting, hwaiting]
    simp
  · simp only [State.waiting, hwaiting]
    refine List.nodup_append.mpr ⟨h.nodup, List.nodup_singleton t, ?_⟩
    intro x hx y hy hxy
    rw [List.mem_singleton.mp hy] at hxy
    exact hnot (hxy ▸ hx)
  · intro u hu
    show heap u ≠ none
    by_cases hut : u = t
    · rw [hut, hheap]
      nofun
    · by_cases hl : s.tail = some u
      · rw [hlast u hl]
        nofun
      · rw [hkeep u hut hl]
        apply h.alive u
        rcases hu with hu | hu
        · simp only [State.waiting, hwaiting] at hu
          rcases List.mem_append.mp hu with hu | hu
          · exact .inl hu
          · exact absurd (List.mem_singleton.mp hu) hut
        · exact .inr hu
  · simp only [State.waiting, hwaiting, List.length_append, List.length_singleton, h.count]
    omega

/-! ## The calls of `run` -/

/-- A call moves on, with nothing popped and no node in its hands after it. -/
theorem Inv.moves (h : Inv s) {x : Caller} {executed : List (ℕ × NodeId × Signal)} {count : ℕ}
    (hx : x.holds = none)
    (hn : ((executed.map Prod.fst : List ℕ) : Multiset ℕ) +
      total Caller.unexecuted (Function.update s.caller c x) = Multiset.range s.popped.length)
    (he : ∀ k t sig, (k, t, sig) ∈ executed → s.popped[k]? = some t)
    (hc : count = s.waiting.length +
      Multiset.card (total Caller.undecremented (Function.update s.caller c x))) :
    Inv ({ s with executed := executed, taskCount := count }.setCaller c x) := by
  have hheld : ∀ d t, ((Function.update s.caller c x) d).holds = some t →
      (s.caller d).holds = some t := by
    intro d t hd
    by_cases hdc : d = c
    · subst hdc
      rw [Function.update_self, hx] at hd
      cases hd
    · rwa [Function.update_of_ne hdc] at hd
  refine ⟨h.fault, h.line, h.chain, h.tail, h.nodup, ?_, hn.symm, ?_, he, hc⟩
  · rintro t (ht | ⟨d, hd⟩)
    · exact h.alive t (.inl ht)
    · exact h.alive t (.inr ⟨d, hheld d t hd⟩)
  · intro d k t hd
    by_cases hdc : d = c
    · subst hdc
      simp only [State.setCaller, Function.update_self] at hd
      rw [hd] at hx
      cases hx
    · simp only [State.setCaller, Function.update_of_ne hdc] at hd
      exact h.inHand d k t hd

/-- A call moves between two places at which it has nothing of the queue. -/
theorem Inv.relocate (h : Inv s) {x : Caller} (hx : x.holds = none)
    (hn : Caller.unexecuted x = (s.caller c).unexecuted)
    (hc : Caller.undecremented x = (s.caller c).undecremented) : Inv (s.setCaller c x) := by
  refine h.moves hx ?_ h.executed ?_
  · rw [total_update_same hn, h.numbers]
  · rw [total_update_same hc, h.count]

theorem pop_eq {node : Node} {rest : List NodeId} (hhead : s.head = some t)
    (hheap : s.heap t = some node) (hnext : node.next = rest.head?)
    (htail : s.tail = (t :: rest).getLast?) :
    s.pop c = some ({ s with
      head := rest.head?, tail := rest.getLast?
      popped := s.popped ++ [t] }.setCaller c (.popped s.popped.length t)) := by
  unfold State.pop
  simp only [hhead, hheap, hnext]
  cases rest with
  | nil => simp
  | cons u rest =>
    simp only [List.head?_cons, reduceCtorEq, if_false, htail]
    rfl

theorem Inv.pop (h : Inv s) (hc : s.caller c = .popping) (hs : s.pop c = some s') : Inv s' := by
  cases hw : s.waiting with
  | nil =>
    have hhead : s.head = none := by rw [h.chain.head, hw]; rfl
    unfold State.pop at hs
    simp only [hhead] at hs
    split_ifs at hs
    cases hs
    exact h.relocate rfl (by rw [hc]; rfl) (by rw [hc]; rfl)
  | cons t rest =>
    have hchain := h.chain
    rw [hw] at hchain
    obtain ⟨hhead, hrest⟩ := hchain
    have halive := h.alive t (.inl (by rw [hw]; exact List.mem_cons_self))
    obtain ⟨node, hnode⟩ := Option.ne_none_iff_exists'.mp halive
    have hnext : node.next = rest.head? := by
      rw [← hrest.head, State.next, hnode]
      rfl
    rw [pop_eq hhead hnode hnext (by rw [h.tail, hw])] at hs
    cases hs
    have hline : s.pushed = (s.popped ++ [t]) ++ rest := by
      rw [h.line, hw, List.append_assoc]
      rfl
    have hwaiting : s.pushed.drop (s.popped ++ [t]).length = rest := by
      rw [hline, List.drop_left]
    -- Numbers already given out keep naming the same task.
    have hold : ∀ (k : ℕ) u, s.popped[k]? = some u → (s.popped ++ [t])[k]? = some u := by
      intro k u hk
      rw [List.getElem?_append_left (List.getElem?_eq_some_iff.mp hk).1]
      exact hk
    have hzero : (s.caller c).unexecuted = 0 ∧ (s.caller c).undecremented = 0 := by
      rw [hc]
      exact ⟨rfl, rfl⟩
    refine ⟨h.fault, ?_, ?_, ?_, ?_, ?_, ?_, ?_, ?_, ?_⟩
    · simp only [State.setCaller, State.waiting, hwaiting]
      exact hline
    · simp only [State.setCaller, State.waiting, hwaiting]
      rw [← hrest.head]
      exact hrest
    · simp only [State.setCaller, State.waiting, hwaiting]
    · simp only [State.setCaller, State.waiting, hwaiting]
      have hn := h.nodup
      rw [hw] at hn
      exact (List.nodup_cons.mp hn).2
    · rintro u (hu | ⟨d, hd⟩)
      · simp only [State.setCaller, State.waiting, hwaiting] at hu
        exact h.alive u (.inl (by rw [hw]; exact List.mem_cons_of_mem t hu))
      · by_cases hdc : d = c
        · subst hdc
          simp only [State.setCaller, Function.update_self, Caller.holds] at hd
          cases hd
          exact halive
        · simp only [State.setCaller, Function.update_of_ne hdc] at hd
          exact h.alive u (.inr ⟨d, hd⟩)
    · simp only [State.setCaller]
      rw [total_update_of_zero hzero.1, ← add_assoc, ← h.numbers, List.length_append,
        List.length_singleton, Multiset.range_succ, ← Multiset.singleton_add, add_comm]
      rfl
    · intro d k u hd
      by_cases hdc : d = c
      · subst hdc
        simp only [State.setCaller, Function.update_self, Caller.popped.injEq] at hd
        obtain ⟨rfl, rfl⟩ := hd
        simp
      · simp only [State.setCaller, Function.update_of_ne hdc] at hd
        exact hold k u (h.inHand d k u hd)
    · intro k u sig hm
      exact hold k u (h.executed k u sig hm)
    · simp only [State.setCaller, State.waiting, hwaiting]
      rw [total_update_of_zero hzero.2, h.count, hw]
      simp only [Caller.undecremented, Multiset.card_add, Multiset.card_singleton, List.length_cons]
      omega

theorem Inv.execute (h : Inv s) {k : ℕ} (hc : s.caller c = .popped k t) (stopRequested : Bool) :
    Inv (s.execute c k t stopRequested) := by
  have halive := h.alive t (.inr ⟨c, by rw [hc]; rfl⟩)
  obtain ⟨node, hnode⟩ := Option.ne_none_iff_exists'.mp halive
  unfold State.execute
  rw [hnode]
  refine h.moves (x := .calling k) rfl ?_ ?_ ?_
  · have hu := total_update_to_zero (g := Caller.unexecuted) (f := s.caller) (i := c)
      (x := .calling k) rfl
    rw [hc] at hu
    rw [h.numbers, ← hu, List.map_append, ← Multiset.coe_add]
    simp only [Caller.unexecuted, List.map_cons, List.map_nil, Multiset.coe_singleton]
    abel
  · intro j u sig hm
    rcases List.mem_append.mp hm with hm | hm
    · exact h.executed j u sig hm
    · cases List.mem_singleton.mp hm
      exact h.inHand c k t hc
  · rw [total_update_same (by rw [hc]; rfl), h.count]

theorem Inv.advance (h : Inv s) {stopRequested : Bool}
    (hs : s.advance c stopRequested = some s') : Inv s' := by
  unfold State.advance at hs
  split at hs
  · cases hs
  · next hc => exact h.pop hc hs
  · next k t hc =>
    cases hs
    exact h.execute hc stopRequested
  · next k hc =>
    cases hs
    exact h.relocate rfl (by rw [hc]; rfl) (by rw [hc]; rfl)
  · next k hc =>
    cases hs
    refine h.moves (x := .popping) rfl ?_ h.executed ?_
    · rw [total_update_same (by rw [hc]; rfl), h.numbers]
    · have hu := total_update_to_zero (g := Caller.undecremented) (f := s.caller) (i := c)
        (x := .popping) rfl
      rw [hc] at hu
      rw [h.count, ← hu, Multiset.card_add]
      simp [Caller.undecremented]

/-! ## Runs -/

theorem inv_step (h : Inv s) {l : Label n} (hs : step s l = some s') : Inv s' := by
  cases l with
  | construct t =>
    simp only [step, Option.ite_none_right_eq_some, Option.some.injEq] at hs
    obtain ⟨ht, rfl⟩ := hs
    exact h.construct ht
  | destroy t =>
    simp only [step, Option.ite_none_right_eq_some, Option.some.injEq] at hs
    obtain ⟨⟨-, hf⟩, rfl⟩ := hs
    exact h.destroy hf
  | start t =>
    simp only [step, Option.ite_none_right_eq_some, Option.some.injEq] at hs
    obtain ⟨⟨ht, hf⟩, rfl⟩ := hs
    exact h.push ht hf
  | finish =>
    cases hs
    exact { h with }
  | run c =>
    simp only [step, Option.ite_none_right_eq_some, Option.some.injEq] at hs
    obtain ⟨hc, rfl⟩ := hs
    exact h.relocate rfl (by rw [hc]; rfl) (by rw [hc]; rfl)
  | advance c stopRequested => exact h.advance hs

/-- A loop without operations, with `n` threads that may call `run`. -/
def Initial (s : State n) : Prop := s = {}

theorem reachable_inv (h : Reachable step Initial s) : Inv s := by
  refine h.preserves (P := Inv) ?_ fun _ _ _ hi hs => inv_step hi hs
  rintro _ rfl
  exact inv_initial

end CCForge.RunLoop
