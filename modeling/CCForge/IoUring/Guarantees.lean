import CCForge.IoUring.Model

/-!
# The rings are bounded FIFOs

The counters and slots of a ring represent the entries in it, wherever the counters wrap, and every
step of the ring is a step of the FIFOs.
-/

namespace CCForge.IoUring

open CCForge.WrapRing

variable {Sqe Cqe : Type} {k kc : ℕ}

/-- The sizes of the rings: powers of two that the counters exceed. -/
structure Sized (r : Ring Sqe Cqe) (k kc : ℕ) : Prop where
  sqMask : IsMask r.sqRingMask k
  sqEntries : r.sqRingEntries.toNat = 2 ^ k
  sqArray : r.sqArray.length = 2 ^ k
  sqes : r.sqes.length = 2 ^ k
  cqMask : IsMask r.cqRingMask kc
  cqes : r.cqes.length = 2 ^ kc

theorem store_of_lt {β : Type} {cells : List β} {i : ℕ} {x : β} (h : i < cells.length) :
    store cells i x = some (cells.set i x) := if_pos h

/-- The entry of a slot to which the slot of the index array points. -/
def linkedSqe (r : Ring Sqe Cqe) (s : ℕ) : Option Sqe :=
  if r.sqArray[s]? = some (BitVec.ofNat 32 s) then r.sqes[s]? else none

theorem linkedSqe_of {r : Ring Sqe Cqe} {s : ℕ} {sqe : Sqe} (harray : r.sqArray[s]? = some (BitVec.ofNat 32 s))
    (hsqe : r.sqes[s]? = some sqe) : linkedSqe r s = some sqe := by
  rw [linkedSqe, if_pos harray, hsqe]

theorem linkedSqe_congr {r r' : Ring Sqe Cqe} {s : ℕ} (harray : r.sqArray[s]? = r'.sqArray[s]?)
    (hsqe : r.sqes[s]? = r'.sqes[s]?) : linkedSqe r s = linkedSqe r' s := by
  simp only [linkedSqe, harray, hsqe]

theorem sqeAt_of_linked {r : Ring Sqe Cqe} {s : ℕ} {sqe : Sqe} (hs : s < 2 ^ 32)
    (h : linkedSqe r s = some sqe) : r.sqeAt s = some sqe := by
  unfold linkedSqe at h
  split at h
  · rename_i harray
    rw [Ring.sqeAt, harray, Option.bind_some, BitVec.toNat_ofNat, Nat.mod_eq_of_lt hs]
    exact h
  · cases h

/-- What the drain in progress has handed over is at the front of the completion ring. -/
def DrainsFrom (r : Ring Sqe Cqe) (old undrained : List Cqe) :
    Option (BitVec 32 × BitVec 32) → Option (ℕ × ℕ) → Prop
  | none, none => old = []
  | some (head, tail), some (held, left) =>
    held = old.length ∧ head = r.cqHead + BitVec.ofNat 32 held ∧ tail = head + BitVec.ofNat 32 left ∧
      left ≤ undrained.length
  | _, _ => False

structure Represents (k kc : ℕ) (s : State Sqe Cqe) (t : Fifo Sqe Cqe) : Prop where
  sized : Sized s.ring k kc
  sq : Queue s.ring.sqRingMask k (linkedSqe s.ring) s.ring.sqHead s.ring.sqTail t.waiting
  cq : ∃ old, Queue s.ring.cqRingMask kc (fun i => s.ring.cqes[i]?) s.ring.cqHead s.ring.cqTail
    (old ++ t.undrained) ∧ DrainsFrom s.ring old t.undrained s.drain t.drain
  flushing : t.flushing = s.flush.isSome
  flushed : s.flush = some (.returning 0) → t.waiting = []

/-! ## The calls -/

section
variable {r : Ring Sqe Cqe} {waiting : List Sqe}

theorem lt_two_pow_32 (h : IsMask (w := 32) mask k) {s : ℕ} (hs : s < 2 ^ k) : s < 2 ^ 32 :=
  hs.trans (Queue.two_pow_lt h)

theorem tryPublish_full [Inhabited Sqe] (hsized : Sized r k kc)
    (h : Queue r.sqRingMask k (linkedSqe r) r.sqHead r.sqTail waiting) (fill : Sqe → Sqe)
    (hfull : waiting.length = 2 ^ k) : r.tryPublish fill = some (r, false) := by
  have hlength := h.length_eq
  have hge : r.sqTail - r.sqHead ≥ r.sqRingEntries := by
    rw [ge_iff_le, BitVec.le_def, hlength, hsized.sqEntries]
    exact hfull.ge
  exact if_pos hge

theorem tryPublish_room [Inhabited Sqe] (hsized : Sized r k kc)
    (h : Queue r.sqRingMask k (linkedSqe r) r.sqHead r.sqTail waiting) (fill : Sqe → Sqe)
    (hroom : waiting.length < 2 ^ k) : ∃ r', r.tryPublish fill = some (r', true) ∧ Sized r' k kc ∧
      Queue r'.sqRingMask k (linkedSqe r') r'.sqHead r'.sqTail (waiting ++ [fill default]) ∧
      r'.cqHead = r.cqHead ∧ r'.cqTail = r.cqTail ∧ r'.cqRingMask = r.cqRingMask ∧ r'.cqes = r.cqes := by
  have hlength := h.length_eq
  have hlt : ¬r.sqTail - r.sqHead ≥ r.sqRingEntries := by
    rw [ge_iff_le, BitVec.le_def, hlength, hsized.sqEntries]
    omega
  have hslot : (r.sqTail &&& r.sqRingMask).toNat < 2 ^ k := slot_lt h.isMask r.sqTail
  have hself : BitVec.ofNat 32 (r.sqTail &&& r.sqRingMask).toNat = r.sqTail &&& r.sqRingMask :=
    BitVec.eq_of_toNat_eq (by rw [BitVec.toNat_ofNat, Nat.mod_eq_of_lt (lt_two_pow_32 h.isMask hslot)])
  refine ⟨{ r with
      sqes := r.sqes.set (r.sqTail &&& r.sqRingMask).toNat (fill default)
      sqArray := r.sqArray.set (r.sqTail &&& r.sqRingMask).toNat (r.sqTail &&& r.sqRingMask)
      sqTail := r.sqTail + 1 }, ?_, ?_, ?_, rfl, rfl, rfl, rfl⟩
  · simp only [Ring.tryPublish, if_neg hlt]
    rw [store_of_lt (by rw [hsized.sqes]; exact hslot), Option.bind_some,
      store_of_lt (by rw [hsized.sqArray]; exact hslot), Option.map_some]
  · exact ⟨hsized.sqMask, hsized.sqEntries, by simpa using hsized.sqArray, by simpa using hsized.sqes,
      hsized.cqMask, hsized.cqes⟩
  · refine h.push hroom ?_ fun s hs => ?_
    · refine linkedSqe_of ?_ (List.getElem?_set_self (by rw [hsized.sqes]; exact hslot))
      exact (List.getElem?_set_self (by rw [hsized.sqArray]; exact hslot)).trans (congrArg some hself.symm)
    · exact linkedSqe_congr (List.getElem?_set_ne fun he => hs he.symm)
        (List.getElem?_set_ne fun he => hs he.symm)

theorem tryRetract_empty (h : Queue r.sqRingMask k (linkedSqe r) r.sqHead r.sqTail []) :
    r.tryRetractLastUnconsumed = (r, false) :=
  if_pos (h.head_eq_tail_iff.mpr rfl)

theorem tryRetract_last (h : Queue r.sqRingMask k (linkedSqe r) r.sqHead r.sqTail waiting)
    (hne : waiting ≠ []) : r.tryRetractLastUnconsumed = ({ r with sqTail := r.sqTail - 1 }, true) ∧
      Queue r.sqRingMask k (linkedSqe r) r.sqHead (r.sqTail - 1) waiting.dropLast ∧
      linkedSqe r (slot r.sqRingMask (r.sqTail - 1)) = waiting.getLast? := by
  have hsplit := List.dropLast_append_getLast hne
  rw [← hsplit] at h
  obtain ⟨hqueue, hlast⟩ := h.retract
  refine ⟨if_neg fun he => ?_, hqueue, by rw [hlast, List.getLast?_eq_getLast_of_ne_nil hne]⟩
  rw [h.head_eq_tail_iff] at he
  simp at he

end

/-! ## Every step is a step of the FIFOs -/

section
variable {s s' : State Sqe Cqe} {t : Fifo Sqe Cqe} {completion : Cqe} {sqe : Sqe} {accepted done : Bool}
  {fill : Sqe → Sqe}

theorem Represents.flushing_eq (h : Represents k kc s t) (hflush : s.flush = none) :
    t.flushing = false := by
  rw [h.flushing, hflush]
  rfl

theorem Represents.flushing_some {flush : Flush} (h : Represents k kc s t) (hflush : s.flush = some flush) :
    t.flushing = true := by
  rw [h.flushing, hflush]
  rfl

/-- A call of `flush_published` moves on. -/
theorem Represents.flush {flush : Option Flush} {flushing : Bool} (h : Represents k kc s t)
    (hflushing : flushing = flush.isSome) (hflushed : flush = some (.returning 0) → t.waiting = []) :
    Represents k kc { s with flush } { t with flushing } :=
  ⟨h.sized, h.sq, h.cq, hflushing, hflushed⟩

theorem Flush.look_returning {r : Ring Sqe Cqe} {attempt : ℕ} (h : Flush.look r attempt = .returning 0) :
    r.sqHead = r.sqTail := by
  unfold Flush.look at h
  split at h
  · split at h
    · assumption
    · cases h
  · cases h

theorem Flush.entered_ne {attempt : ℕ} {result errno : ℤ} (h : ¬(result < 0 ∧ errno = 0)) :
    Flush.entered attempt result errno ≠ .returning 0 := by
  unfold Flush.entered
  by_cases hresult : result ≥ 0
  · simp [hresult]
  · simp only [if_neg hresult]
    split
    · simp
    · intro he
      cases he
      exact h ⟨by omega, rfl⟩

variable [Inhabited Sqe] [DecidableEq Sqe] [DecidableEq Cqe]

theorem Represents.step_publish (h : Represents k kc s t)
    (hstep : step s (.publish fill accepted) = some s') :
    ∃ t', t.step (2 ^ k) (2 ^ kc) (.publish fill accepted) = some t' ∧ Represents k kc s' t' := by
  simp only [step, Option.ite_none_right_eq_some, Option.bind_eq_some_iff] at hstep
  obtain ⟨hflush, ⟨ring, result⟩, hring, hresult, hs'⟩ := hstep
  cases hresult
  cases hs'
  have hflushing := h.flushing_eq hflush
  by_cases hfull : t.waiting.length = 2 ^ k
  · rw [tryPublish_full h.sized h.sq fill hfull] at hring
    cases hring
    exact ⟨t, by simp [Fifo.step, hflushing, hfull], h⟩
  · obtain ⟨r', hr', hsized, hqueue, hhead, htail, hmask, hcqes⟩ :=
      tryPublish_room h.sized h.sq fill (lt_of_le_of_ne h.sq.length_le hfull)
    rw [hr'] at hring
    cases hring
    obtain ⟨old, hcq, hdrain⟩ := h.cq
    refine ⟨{ t with waiting := t.waiting ++ [fill default] }, by simp [Fifo.step, hflushing, hfull],
      hsized, hqueue, ⟨old, ?_, ?_⟩, h.flushing, by simp [hflush]⟩
    · rw [hhead, htail, hmask, hcqes]
      exact hcq
    · unfold DrainsFrom at hdrain ⊢
      rw [hhead]
      exact hdrain

theorem Represents.step_retract (h : Represents k kc s t) (hstep : step s (.retract done) = some s') :
    ∃ t', t.step (2 ^ k) (2 ^ kc) (.retract done) = some t' ∧ Represents k kc s' t' := by
  simp only [step, Option.ite_none_right_eq_some] at hstep
  obtain ⟨hflush, hdone, hs'⟩ := hstep
  cases hs'
  have hflushing := h.flushing_eq hflush
  by_cases hempty : t.waiting = []
  · have hsq := h.sq
    rw [hempty] at hsq
    rw [tryRetract_empty hsq] at hdone ⊢
    refine ⟨{ t with waiting := t.waiting.dropLast }, by simp [Fifo.step, hflushing, hempty, ← hdone], ?_⟩
    rw [hempty]
    exact ⟨h.sized, hsq, h.cq, h.flushing, fun _ => rfl⟩
  · obtain ⟨hretract, hqueue, -⟩ := tryRetract_last h.sq hempty
    rw [hretract] at hdone ⊢
    refine ⟨{ t with waiting := t.waiting.dropLast }, by simp [Fifo.step, hflushing, hempty, ← hdone],
      ⟨h.sized.sqMask, h.sized.sqEntries, h.sized.sqArray, h.sized.sqes, h.sized.cqMask, h.sized.cqes⟩,
      hqueue, h.cq, h.flushing, by simp [hflush]⟩

theorem Represents.step_post (h : Represents k kc s t) (hstep : step s (.post completion) = some s') :
    ∃ t', t.step (2 ^ k) (2 ^ kc) (.post completion) = some t' ∧ Represents k kc s' t' := by
  simp only [step, Option.map_eq_some_iff] at hstep
  obtain ⟨ring, hpost, hs'⟩ := hstep
  cases hs'
  obtain ⟨old, hcq, hdrain⟩ := h.cq
  have hlength := hcq.length_eq
  unfold Ring.post at hpost
  split at hpost
  · rename_i hroom
    have hpos := Nat.two_pow_pos kc
    rw [BitVec.le_def, hlength, h.sized.cqMask.2, List.length_append] at hroom
    rw [store_of_lt (by rw [h.sized.cqes]; exact slot_lt hcq.isMask _), Option.map_some] at hpost
    cases hpost
    have hheld : t.drain.elim 0 Prod.fst ≤ old.length := by
      cases hd : s.drain <;> cases ht : t.drain <;> simp only [hd, ht, DrainsFrom] at hdrain <;> simp
      omega
    refine ⟨{ t with undrained := t.undrained ++ [completion] }, if_pos (by omega),
      ⟨h.sized.sqMask, h.sized.sqEntries, h.sized.sqArray, h.sized.sqes, h.sized.cqMask,
        by simpa using h.sized.cqes⟩, h.sq, ⟨old, ?_, ?_⟩, h.flushing, h.flushed⟩
    · rw [← List.append_assoc]
      refine hcq.push (by rw [List.length_append]; omega) ?_ fun i hi => ?_
      · exact List.getElem?_set_self (by rw [h.sized.cqes]; exact slot_lt hcq.isMask _)
      · exact List.getElem?_set_ne fun he => hi he.symm
    · unfold DrainsFrom at hdrain ⊢
      cases hd : s.drain <;> cases ht : t.drain <;> simp only [hd, ht] at hdrain ⊢
      · exact hdrain
      · obtain ⟨h1, h2, h3, h4⟩ := hdrain
        exact ⟨h1, h2, h3, by rw [List.length_append]; omega⟩
  · cases hpost

theorem Represents.step_consume (h : Represents k kc s t) (hstep : step s (.consume sqe) = some s') :
    ∃ t', t.step (2 ^ k) (2 ^ kc) (.consume sqe) = some t' ∧ Represents k kc s' t' := by
  simp only [step, Option.ite_none_right_eq_some] at hstep
  obtain ⟨⟨hne, hsqe⟩, hs'⟩ := hstep
  cases hs'
  have hsq := h.sq
  cases hw : t.waiting with
  | nil =>
    rw [hw] at hsq
    exact absurd (hsq.head_eq_tail_iff.mpr rfl) hne
  | cons first rest =>
    rw [hw] at hsq
    have hfirst := sqeAt_of_linked (lt_two_pow_32 hsq.isMask (slot_lt hsq.isMask _)) hsq.front
    rw [hfirst] at hsqe
    refine ⟨{ t with waiting := rest }, by simp [Fifo.step, hw, hsqe],
      ⟨h.sized.sqMask, h.sized.sqEntries, h.sized.sqArray, h.sized.sqes, h.sized.cqMask, h.sized.cqes⟩,
      hsq.pop, h.cq, h.flushing, fun hflush => ?_⟩
    have hnil := h.flushed hflush
    rw [hw] at hnil
    cases hnil

theorem Represents.step_drain (h : Represents k kc s t) (hstep : step s .drain = some s') :
    ∃ t', t.step (2 ^ k) (2 ^ kc) .drain = some t' ∧ Represents k kc s' t' := by
  simp only [step, Option.ite_none_right_eq_some] at hstep
  obtain ⟨hnone, hs'⟩ := hstep
  cases hs'
  obtain ⟨old, hcq, hdrain⟩ := h.cq
  cases ht : t.drain with
  | some drain =>
    rw [hnone, ht] at hdrain
    exact hdrain.elim
  | none =>
    rw [hnone, ht] at hdrain
    cases hdrain
    refine ⟨{ t with drain := some (0, t.undrained.length) }, by simp [Fifo.step, ht], h.sized, h.sq,
      ⟨[], hcq, rfl, by simp, ?_, le_rfl⟩, h.flushing, h.flushed⟩
    exact hcq.tail_eq

theorem Represents.step_hand (h : Represents k kc s t) (hstep : step s (.hand completion) = some s') :
    ∃ t', t.step (2 ^ k) (2 ^ kc) (.hand completion) = some t' ∧ Represents k kc s' t' := by
  obtain ⟨old, hcq, hdrain⟩ := h.cq
  cases hd : s.drain with
  | none => simp [step, hd] at hstep
  | some locals =>
    obtain ⟨head, tail⟩ := locals
    simp only [step, hd, Option.ite_none_right_eq_some] at hstep
    obtain ⟨⟨hne, hcell⟩, hs'⟩ := hstep
    cases hs'
    cases ht : t.drain with
    | none =>
      rw [hd, ht] at hdrain
      exact hdrain.elim
    | some counts =>
      obtain ⟨held, left⟩ := counts
      rw [hd, ht] at hdrain
      obtain ⟨rfl, rfl, rfl, hleft⟩ := hdrain
      cases left with
      | zero => simp at hne
      | succ left =>
        cases hu : t.undrained with
        | nil => simp [hu] at hleft
        | cons first rest =>
          rw [hu] at hcq hleft
          have hfirst := hcq.drop.front
          rw [hfirst] at hcell
          cases hcell
          refine ⟨{ t with undrained := rest, drain := some (old.length + 1, left) },
            by simp [Fifo.step, ht, hu], h.sized, h.sq,
            ⟨old ++ [completion], by simpa using hcq, by simp, (add_ofNat_succ _ _).symm,
              add_ofNat_succ' _ _, by simpa using hleft⟩, h.flushing, h.flushed⟩

theorem Represents.step_drained (h : Represents k kc s t) (hstep : step s .drained = some s') :
    ∃ t', t.step (2 ^ k) (2 ^ kc) .drained = some t' ∧ Represents k kc s' t' := by
  obtain ⟨old, hcq, hdrain⟩ := h.cq
  cases hd : s.drain with
  | none => simp [step, hd] at hstep
  | some locals =>
    obtain ⟨head, tail⟩ := locals
    simp only [step, hd, Option.ite_none_right_eq_some] at hstep
    obtain ⟨heq, hs'⟩ := hstep
    cases hs'
    cases ht : t.drain with
    | none =>
      rw [hd, ht] at hdrain
      exact hdrain.elim
    | some counts =>
      obtain ⟨held, left⟩ := counts
      rw [hd, ht] at hdrain
      obtain ⟨rfl, rfl, rfl, hleft⟩ := hdrain
      have hle := hcq.length_le
      have hlt := Queue.two_pow_lt hcq.isMask
      rw [List.length_append] at hle
      -- the counters agree as words, and fewer than 2 ^ 32 completions are between them
      have hzero : left = 0 := by
        have hcount := congrArg BitVec.toNat (BitVec.add_right_eq_self.mp heq.symm)
        rw [BitVec.toNat_ofNat, Nat.mod_eq_of_lt (by omega)] at hcount
        exact hcount
      subst hzero
      exact ⟨{ t with drain := none }, by simp [Fifo.step, ht],
        ⟨h.sized.sqMask, h.sized.sqEntries, h.sized.sqArray, h.sized.sqes, h.sized.cqMask, h.sized.cqes⟩,
        h.sq, ⟨[], hcq.drop, rfl⟩, h.flushing, h.flushed⟩

theorem Represents.step_flushed {error : ℤ} (h : Represents k kc s t)
    (hstep : step s (.flushed error) = some s') :
    ∃ t', t.step (2 ^ k) (2 ^ kc) (.flushed error) = some t' ∧ Represents k kc s' t' := by
  simp only [step, Option.ite_none_right_eq_some] at hstep
  obtain ⟨hreturning, hs'⟩ := hstep
  cases hs'
  refine ⟨{ t with flushing := false }, if_pos ⟨h.flushing_some hreturning, ?_⟩, h.flush rfl (by simp)⟩
  rintro rfl
  exact h.flushed hreturning

theorem Represents.step_look (h : Represents k kc s t) (hstep : step s .look = some s') :
    t.step (2 ^ k) (2 ^ kc) .look = some t ∧ Represents k kc s' t := by
  cases hflush : s.flush with
  | none => simp [step, hflush] at hstep
  | some flush =>
    cases flush with
    | looking attempt =>
      simp only [step, hflush] at hstep
      cases hstep
      have hflushing := h.flushing_some hflush
      refine ⟨if_pos hflushing, h.flush hflushing fun hreturning => ?_⟩
      -- zero is returned only where the head was read equal to the tail
      exact h.sq.head_eq_tail_iff.mp (Flush.look_returning (Option.some.inj hreturning))
    | entering attempt => simp [step, hflush] at hstep
    | returning error => simp [step, hflush] at hstep

theorem Represents.step_enter {result errno : ℤ} (h : Represents k kc s t)
    (hstep : step s (.enter result errno) = some s') :
    t.step (2 ^ k) (2 ^ kc) (.enter result errno) = some t ∧ Represents k kc s' t := by
  cases hflush : s.flush with
  | none => simp [step, hflush] at hstep
  | some flush =>
    cases flush with
    | looking attempt => simp [step, hflush] at hstep
    | entering attempt =>
      simp only [step, hflush, Option.ite_none_left_eq_some] at hstep
      obtain ⟨herrno, hs'⟩ := hstep
      cases hs'
      have hflushing := h.flushing_some hflush
      refine ⟨if_pos hflushing, h.flush hflushing fun hreturning => ?_⟩
      exact absurd (Option.some.inj hreturning) (Flush.entered_ne herrno)
    | returning error => simp [step, hflush] at hstep

theorem Represents.step {event : Event Sqe Cqe} (h : Represents k kc s t)
    (hstep : IoUring.step s event = some s') :
    ∃ t', t.step (2 ^ k) (2 ^ kc) event = some t' ∧ Represents k kc s' t' := by
  cases event with
  | publish fill accepted => exact h.step_publish hstep
  | retract done => exact h.step_retract hstep
  | flush =>
    simp only [IoUring.step, Option.ite_none_right_eq_some] at hstep
    obtain ⟨hnone, hs'⟩ := hstep
    cases hs'
    exact ⟨{ t with flushing := true }, if_pos (h.flushing_eq hnone), h.flush rfl (by simp)⟩
  | look => exact ⟨t, h.step_look hstep⟩
  | enter result errno => exact ⟨t, h.step_enter hstep⟩
  | flushed error => exact h.step_flushed hstep
  | drain => exact h.step_drain hstep
  | hand completion => exact h.step_hand hstep
  | drained => exact h.step_drained hstep
  | consume sqe => exact h.step_consume hstep
  | post completion => exact h.step_post hstep

theorem Represents.run {events : List (Event Sqe Cqe)} (h : Represents k kc s t)
    (hrun : CCForge.run IoUring.step s events = some s') :
    ∃ t', CCForge.run (Fifo.step (2 ^ k) (2 ^ kc)) t events = some t' ∧ Represents k kc s' t' := by
  induction events generalizing s t with
  | nil =>
    cases hrun
    exact ⟨t, rfl, h⟩
  | cons event events ih =>
    obtain ⟨u, hu, hrest⟩ := run_cons hrun
    obtain ⟨v, hv, hrep⟩ := h.step hu
    obtain ⟨t', ht', hrep'⟩ := ih hrep hrest
    exact ⟨t', by rw [CCForge.run, hv]; exact ht', hrep'⟩

/-! ## What a run hands over -/

theorem Fifo.step_history {event : Event Sqe Cqe} {t' : Fifo Sqe Cqe} {entries cqEntries : ℕ}
    (h : t.step entries cqEntries event = some t') (seen : List Sqe) :
    keep (seen ++ t.waiting) event = seen ++ consumed [event] ++ t'.waiting ∧
      handed [event] ++ t'.undrained = t.undrained ++ posted [event] := by
  cases event with
  | publish fill accepted =>
    simp only [Fifo.step, Option.ite_none_right_eq_some] at h
    obtain ⟨-, ht'⟩ := h
    cases ht'
    cases accepted <;> simp [keep, consumed, handed, posted]
  | retract done =>
    simp only [Fifo.step, Option.ite_none_right_eq_some] at h
    obtain ⟨⟨-, hdone⟩, ht'⟩ := h
    cases ht'
    cases done with
    | true =>
      have hne : t.waiting ≠ [] := of_decide_eq_true hdone.symm
      -- the kernel consumes at the other end, so what is dropped was not seen
      simp [keep, consumed, handed, posted, List.dropLast_append_of_ne_nil hne]
    | false =>
      have hnil : t.waiting = [] := not_not.mp (of_decide_eq_false hdone.symm)
      simp [keep, consumed, handed, posted, hnil]
  | hand completion =>
    cases hd : t.drain with
    | none => simp [Fifo.step, hd] at h
    | some counts =>
      obtain ⟨held, left⟩ := counts
      cases left with
      | zero => simp [Fifo.step, hd] at h
      | succ left =>
        simp only [Fifo.step, hd, Option.ite_none_right_eq_some] at h
        obtain ⟨hhead, ht'⟩ := h
        cases ht'
        obtain ⟨rest, hrest⟩ := List.head?_eq_some_iff.mp hhead
        simp [keep, consumed, handed, posted, hrest]
  | drained =>
    cases hd : t.drain with
    | none => simp [Fifo.step, hd] at h
    | some counts =>
      obtain ⟨held, left⟩ := counts
      cases left with
      | zero =>
        simp only [Fifo.step, hd] at h
        cases h
        simp [keep, consumed, handed, posted]
      | succ left => simp [Fifo.step, hd] at h
  | consume sqe =>
    simp only [Fifo.step, Option.ite_none_right_eq_some] at h
    obtain ⟨hhead, ht'⟩ := h
    cases ht'
    obtain ⟨rest, hrest⟩ := List.head?_eq_some_iff.mp hhead
    simp [keep, consumed, handed, posted, hrest]
  | flush | look | enter | flushed | drain | post =>
    simp only [Fifo.step, Option.ite_none_right_eq_some] at h
    obtain ⟨-, ht'⟩ := h
    cases ht'
    simp [keep, consumed, handed, posted]

theorem Fifo.run_history {events : List (Event Sqe Cqe)} {t' : Fifo Sqe Cqe} {entries cqEntries : ℕ}
    (h : CCForge.run (Fifo.step entries cqEntries) t events = some t') (seen : List Sqe) :
    events.foldl keep (seen ++ t.waiting) = seen ++ consumed events ++ t'.waiting ∧
      handed events ++ t'.undrained = t.undrained ++ posted events := by
  induction events generalizing t seen with
  | nil =>
    cases h
    simp [consumed, handed, posted]
  | cons event events ih =>
    obtain ⟨u, hu, hrest⟩ := run_cons h
    obtain ⟨hkeep, hhanded⟩ := Fifo.step_history hu seen
    obtain ⟨hkeep', hhanded'⟩ := ih hrest (seen ++ consumed [event])
    have hsplit (f : Event Sqe Cqe → Option Sqe) :
        (event :: events).filterMap f = [event].filterMap f ++ events.filterMap f :=
      List.filterMap_append (l := [event])
    have hsplit' (f : Event Sqe Cqe → Option Cqe) :
        (event :: events).filterMap f = [event].filterMap f ++ events.filterMap f :=
      List.filterMap_append (l := [event])
    refine ⟨?_, ?_⟩
    · rw [List.foldl_cons, hkeep, hkeep', consumed, consumed, consumed, hsplit, ← List.append_assoc]
    · rw [handed, posted, hsplit', hsplit', List.append_assoc]
      simp only [handed, posted] at hhanded hhanded'
      rw [hhanded', ← List.append_assoc, hhanded, List.append_assoc]

/-! ## The calls in a state -/

/-- What the calls do where `waiting` is unconsumed. -/
structure Calls (k : ℕ) (s : State Sqe Cqe) (waiting : List Sqe) : Prop where
  /-- `try_publish` fails only when every place is taken. -/
  publish : s.flush = none → ∀ fill, ∃ s',
    IoUring.step s (.publish fill (decide (waiting.length ≠ 2 ^ k))) = some s'
  publish_iff : ∀ fill accepted s', IoUring.step s (.publish fill accepted) = some s' →
    (accepted = false ↔ waiting.length = 2 ^ k)
  retract : s.flush = none → ∃ s', IoUring.step s (.retract (decide (waiting ≠ []))) = some s'
  /-- The slot that `try_publish` fills next is that of the retracted entry. -/
  reuse : ∀ s', IoUring.step s (.retract true) = some s' →
    s.ring.sqeAt (slot s'.ring.sqRingMask s'.ring.sqTail) = waiting.getLast? ∧ waiting ≠ []
  flushed : ∀ s', IoUring.step s (.flushed 0) = some s' → waiting = []
  /-- A drain goes on until it ends. -/
  drain : s.drain.isSome → (∃ completion s', IoUring.step s (.hand completion) = some s') ∨
    ∃ s', IoUring.step s .drained = some s'

theorem Represents.calls (h : Represents k kc s t) : Calls k s t.waiting where
  publish := by
    intro hflush fill
    by_cases hfull : t.waiting.length = 2 ^ k
    · exact ⟨_, by simp [IoUring.step, hflush, tryPublish_full h.sized h.sq fill hfull, hfull]; rfl⟩
    · obtain ⟨r', hr', -⟩ := tryPublish_room h.sized h.sq fill (lt_of_le_of_ne h.sq.length_le hfull)
      exact ⟨_, by simp [IoUring.step, hflush, hr', hfull]; rfl⟩
  publish_iff := by
    intro fill accepted s' hstep
    obtain ⟨t', ht', -⟩ := h.step_publish hstep
    simp only [Fifo.step, Option.ite_none_right_eq_some] at ht'
    rw [ht'.1.2, decide_eq_false_iff_not, not_not]
  retract := by
    intro hflush
    by_cases hempty : t.waiting = []
    · have hsq := h.sq
      rw [hempty] at hsq
      exact ⟨_, by simp [IoUring.step, hflush, tryRetract_empty hsq, hempty]; rfl⟩
    · obtain ⟨hretract, -, -⟩ := tryRetract_last h.sq hempty
      exact ⟨_, by simp [IoUring.step, hflush, hretract, hempty]; rfl⟩
  reuse := by
    intro s' hstep
    obtain ⟨t', ht', -⟩ := h.step_retract hstep
    simp only [Fifo.step, Option.ite_none_right_eq_some] at ht'
    have hne : t.waiting ≠ [] := of_decide_eq_true ht'.1.2.symm
    obtain ⟨hretract, -, hslot⟩ := tryRetract_last h.sq hne
    simp only [IoUring.step, hretract, Option.ite_none_right_eq_some] at hstep
    obtain ⟨-, -, hs'⟩ := hstep
    cases hs'
    refine ⟨?_, hne⟩
    rw [List.getLast?_eq_getLast_of_ne_nil hne] at hslot ⊢
    exact sqeAt_of_linked (lt_two_pow_32 h.sq.isMask (slot_lt h.sq.isMask _)) hslot
  flushed := by
    intro s' hstep
    obtain ⟨t', ht', -⟩ := h.step_flushed hstep
    simp only [Fifo.step, Option.ite_none_right_eq_some] at ht'
    exact ht'.1.2 trivial
  drain := by
    intro hsome
    obtain ⟨⟨head, tail⟩, hd⟩ := Option.isSome_iff_exists.mp hsome
    obtain ⟨old, hcq, hdrain⟩ := h.cq
    by_cases heq : head = tail
    · exact .inr ⟨_, by simp [IoUring.step, hd, heq]; rfl⟩
    -- the local tail is not reached, so a completion that was posted before the drain is left
    · cases ht : t.drain with
      | none =>
        rw [hd, ht] at hdrain
        exact hdrain.elim
      | some counts =>
        obtain ⟨held, left⟩ := counts
        rw [hd, ht] at hdrain
        obtain ⟨rfl, rfl, rfl, hleft⟩ := hdrain
        cases hu : t.undrained with
        | nil =>
          rw [hu, List.length_nil, Nat.le_zero] at hleft
          simp [hleft] at heq
        | cons first rest =>
          rw [hu] at hcq
          have hfirst := hcq.drop.front
          exact .inl ⟨first, _, by simp [IoUring.step, hd, heq, hfirst]; rfl⟩

/-- A ring with power-of-two sizes behaves as a bounded FIFO in each direction, from any values of its
counters and across their wrap. The kernel sees what was published and not retracted, and a drain
hands over what was posted, each exactly once and in order. -/
theorem rings_are_bounded_fifos {r : Ring Sqe Cqe} (hsized : Sized r k kc) (hsq : r.sqHead = r.sqTail)
    (hcq : r.cqHead = r.cqTail) (events : List (Event Sqe Cqe)) (s : State Sqe Cqe)
    (hrun : CCForge.run IoUring.step { ring := r } events = some s) :
    ∃ t, CCForge.run (Fifo.step (2 ^ k) (2 ^ kc)) {} events = some t ∧
      consumed events ++ t.waiting = kept events ∧ handed events ++ t.undrained = posted events ∧
      t.waiting.length ≤ 2 ^ k ∧ t.undrained.length ≤ 2 ^ kc ∧ Calls k s t.waiting := by
  have hstart : Represents k kc { ring := r } ({} : Fifo Sqe Cqe) :=
    ⟨hsized, ⟨hsized.sqMask, Nat.zero_le _, by simp [hsq], by simp⟩,
      ⟨[], ⟨hsized.cqMask, Nat.zero_le _, by simp [hcq], by simp⟩, rfl⟩, rfl, fun _ => rfl⟩
  obtain ⟨t, ht, hrep⟩ := hstart.run hrun
  obtain ⟨hkept, hposted⟩ := Fifo.run_history ht []
  obtain ⟨old, hqueue, -⟩ := hrep.cq
  have hle := hqueue.length_le
  rw [List.length_append] at hle
  exact ⟨t, ht, by simpa [kept] using hkept.symm, by simpa using hposted, hrep.sq.length_le, by omega,
    hrep.calls⟩

/-- Two places and counters that wrap after the first entry. -/
theorem rings_are_bounded_fifos_wrapping :
    ∃ (s : State ℕ ℕ) (waiting : List ℕ), CCForge.run IoUring.step
      { ring := ⟨BitVec.allOnes 32, BitVec.allOnes 32, 1, 2, [0, 0], [0, 0], 0, 0, 1, [0, 0]⟩ }
      [.publish (fun _ => 5) true, .publish (fun _ => 6) true, .publish (fun _ => 7) false, .consume 5,
        .retract true, .publish (fun _ => 8) true, .post 1, .drain, .post 2, .hand 1] = some s ∧
      Calls 1 s waiting := by
  obtain ⟨t, -, -, -, -, -, hcalls⟩ := @rings_are_bounded_fifos ℕ ℕ 1 1 _ _ _
    ⟨BitVec.allOnes 32, BitVec.allOnes 32, 1, 2, [0, 0], [0, 0], 0, 0, 1, [0, 0]⟩
    ⟨⟨by decide, rfl⟩, rfl, rfl, rfl, ⟨by decide, rfl⟩, rfl⟩ rfl rfl
    [.publish (fun _ => 5) true, .publish (fun _ => 6) true, .publish (fun _ => 7) false, .consume 5,
      .retract true, .publish (fun _ => 8) true, .post 1, .drain, .post 2, .hand 1]
    { ring := ⟨0, 1, 1, 2, [0, 1], [8, 5], 0, 2, 1, [1, 2]⟩, drain := some (1, 1) } (by decide)
  exact ⟨_, t.waiting, by decide, hcalls⟩

end

end CCForge.IoUring
