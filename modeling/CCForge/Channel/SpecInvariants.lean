import CCForge.Channel.Spec
import CCForge.Lib.Updates

/-!
# Invariants of the abstract channel

Three groups, each preserved by every step: which of the lines and the buffer can be
occupied together, that the lines hold exactly the waiting operations, and that the
values leave in the order in which they were accepted.
-/

namespace CCForge.Channel.Spec

variable {α : Type*} {s t : Spec α}

@[simp] theorem settleFailed_nil (n : ℕ) : settleFailed [] n = 0 := rfl

theorem settleFailed_of_ne {l : List RecordId} (h : l ≠ []) (n : ℕ) : settleFailed l n = n := by
  cases l with
  | nil => exact absurd rfl h
  | cons _ _ => rfl

/-- Who may be present together. The buffer misses one slot for every promotion that
failed since the line of senders was last empty. -/
structure Discipline (s : Spec α) : Prop where
  bound : s.buffer.length ≤ s.capacity
  alone : s.receivers ≠ [] → s.buffer = [] ∧ s.senders = []
  full : s.senders ≠ [] → s.buffer.length + s.failed = s.capacity
  settled : s.senders = [] → s.failed = 0
  shut : s.shut = true → s.senders = [] ∧ s.receivers = []

theorem Step.discipline (h : Step s t) (hs : s.Discipline) : t.Discipline := by
  obtain ⟨hbound, halone, hfull, hsettled, hshut⟩ := hs
  cases h with
  | refuseSend | refuseRecv => exact ⟨hbound, halone, hfull, hsettled, hshut⟩
  | sendDirect i r rest o h0 hi hr ho =>
    have he := halone (by simp [hr])
    exact ⟨hbound, fun _ => he, fun h => absurd he.2 h, hsettled, fun h => absurd (h0.symm.trans h) (by simp)⟩
  | sendBuffer i o h0 hi hr hs hroom ho =>
    refine ⟨?_, fun h => absurd hr h, fun h => absurd hs h, hsettled, fun h => absurd (h0.symm.trans h) (by simp)⟩
    simpa using Nat.succ_le_of_lt hroom
  | sendWait i h0 hi hr hfull' =>
    refine ⟨hbound, fun h => absurd hr h, fun _ => ?_, by simp, fun h => absurd (h0.symm.trans h) (by simp)⟩
    by_cases hs : s.senders = []
    · have := hfull' hs
      have := hsettled hs
      show s.buffer.length + s.failed = s.capacity
      omega
    · exact hfull hs
  | recvBuffer r j v rest o hr hb hs ho =>
    have hl : rest.length < s.buffer.length := by simp [hb]
    refine ⟨by dsimp only; omega, fun h => ?_, fun h => absurd hs h, hsettled, hshut⟩
    simpa [hb] using (halone h).1
  | recvPromote r j k v rest line o hr hb hs ho =>
    have hne : s.senders ≠ [] := by simp [hs]
    have hl : (rest ++ [(k, s.value k)]).length = s.buffer.length := by simp [hb]
    refine ⟨by rw [hl]; exact hbound, fun h => absurd (halone h).2 hne, fun h => ?_, ?_, ?_⟩
    · rw [hl, settleFailed_of_ne h]
      exact hfull hne
    · rintro rfl
      rfl
    · intro h
      exact absurd (hshut h).1 hne
  | recvPromoteFail r j k v rest line o hr hb hs ho =>
    have hne : s.senders ≠ [] := by simp [hs]
    have hl : rest.length + 1 = s.buffer.length := by simp [hb]
    refine ⟨by dsimp only; omega, fun h => absurd (halone h).2 hne, fun h => ?_, ?_, ?_⟩
    · have := hfull hne
      rw [settleFailed_of_ne h]
      dsimp only
      omega
    · rintro rfl
      rfl
    · intro h
      exact absurd (hshut h).1 hne
  | recvDirect r i line o hr hb hs ho =>
    have hne : s.senders ≠ [] := by simp [hs]
    refine ⟨hbound, fun h => absurd (halone h).2 hne, fun h => ?_, ?_, ?_⟩
    · rw [settleFailed_of_ne h]
      exact hfull hne
    · rintro rfl
      rfl
    · intro h
      exact absurd (hshut h).1 hne
  | recvWait r h0 hr hb hs =>
    exact ⟨hbound, fun _ => ⟨hb, hs⟩, hfull, hsettled, fun h => absurd (h0.symm.trans h) (by simp)⟩
  | dropSend i hi =>
    have hne : s.senders ≠ [] := List.ne_nil_of_mem hi
    refine ⟨hbound, fun h => absurd (halone h).2 hne, fun h => ?_, ?_, ?_⟩
    · rw [settleFailed_of_ne h]
      exact hfull hne
    · intro h
      dsimp only at h ⊢
      rw [h, settleFailed_nil]
    · intro h
      exact absurd (hshut h).1 hne
  | dropRecv r hr =>
    have he := halone (List.ne_nil_of_mem hr)
    refine ⟨hbound, fun _ => he, hfull, hsettled, fun h => ?_⟩
    rw [(hshut h).2] at hr
    simp at hr
  | close => exact ⟨hbound, by simp, by simp, by simp, by simp⟩
  | requestStop => exact ⟨by simp, by simp, by simp, by simp, by simp⟩

/-- The lines hold exactly the waiting operations, once each. -/
structure Lines (s : Spec α) : Prop where
  senders_nodup : s.senders.Nodup
  senders_waiting : ∀ i, i ∈ s.senders ↔ s.sent i = .waiting
  receivers_nodup : s.receivers.Nodup
  receivers_waiting : ∀ r, r ∈ s.receivers ↔ s.received r = .waiting

theorem lineOut {β : Type*} {line rest : List RecordId} {status : RecordId → Status β}
    {k : RecordId} (o : β) (hn : line.Nodup) (hw : ∀ i, i ∈ line ↔ status i = .waiting)
    (hl : line = k :: rest) :
    rest.Nodup ∧ ∀ i, i ∈ rest ↔ Function.update status k (.ended o) i = .waiting := by
  subst hl
  rw [List.nodup_cons] at hn
  refine ⟨hn.2, fun i => ?_⟩
  by_cases hi : i = k
  · simp [hi, hn.1]
  · simp [← hw i, hi]

theorem lineIn {β : Type*} {line : List RecordId} {status : RecordId → Status β} {k : RecordId}
    (hn : line.Nodup) (hw : ∀ i, i ∈ line ↔ status i = .waiting) (hk : status k = .fresh) :
    (line ++ [k]).Nodup ∧ ∀ i, i ∈ line ++ [k] ↔ Function.update status k .waiting i = .waiting := by
  have hnot : k ∉ line := by simp [hw k, hk]
  refine ⟨nodup_snoc hn hnot, fun i => ?_⟩
  by_cases hi : i = k
  · simp [hi]
  · simp [← hw i, hi]

theorem lineDrop {β : Type*} {line : List RecordId} {status : RecordId → Status β} {k : RecordId}
    (o : β) (hn : line.Nodup) (hw : ∀ i, i ∈ line ↔ status i = .waiting) :
    (line.erase k).Nodup ∧
      ∀ i, i ∈ line.erase k ↔ Function.update status k (.ended o) i = .waiting := by
  refine ⟨hn.erase k, fun i => ?_⟩
  by_cases hi : i = k
  · simp [hi, hn.mem_erase_iff]
  · simp [← hw i, hi, hn.mem_erase_iff]

/-- An operation that was not waiting ends without touching the line. -/
theorem lineKeep {β : Type*} {line : List RecordId} {status : RecordId → Status β} {k : RecordId}
    (o : β) (hw : ∀ i, i ∈ line ↔ status i = .waiting) (hk : status k = .fresh) (i : RecordId) :
    i ∈ line ↔ Function.update status k (.ended o) i = .waiting := by
  by_cases hi : i = k
  · simp [hi, hw k, hk]
  · simp [hi, hw i]

theorem lineStop {β : Type*} {line : List RecordId} {status : RecordId → Status β}
    (o : β) (hw : ∀ i, i ∈ line ↔ status i = .waiting) (i : RecordId) :
    i ∈ ([] : List RecordId) ↔ stopAll line status o i = .waiting := by
  by_cases hi : i ∈ line
  · simp [stopAll, hi]
  · simp [stopAll, hi, ← hw i]

theorem Step.lines (h : Step s t) (hs : s.Lines) : t.Lines := by
  obtain ⟨hsn, hsw, hrn, hrw⟩ := hs
  cases h with
  | refuseSend i o hi ho => exact ⟨hsn, lineKeep o hsw hi, hrn, hrw⟩
  | refuseRecv r o hr ho => exact ⟨hsn, hsw, hrn, lineKeep o hrw hr⟩
  | sendDirect i r rest o h0 hi hr ho =>
    obtain ⟨hn, hw⟩ := lineOut (.value (some (s.value i))) hrn hrw hr
    exact ⟨hsn, lineKeep o hsw hi, hn, hw⟩
  | sendBuffer i o h0 hi hr hs hroom ho => exact ⟨hsn, lineKeep o hsw hi, hrn, hrw⟩
  | sendWait i h0 hi hr hfull =>
    obtain ⟨hn, hw⟩ := lineIn hsn hsw hi
    exact ⟨hn, hw, hrn, hrw⟩
  | recvBuffer r j v rest o hr hb hs ho => exact ⟨hsn, hsw, hrn, lineKeep o hrw hr⟩
  | recvPromote r j k v rest line o hr hb hs ho =>
    obtain ⟨hn, hw⟩ := lineOut .value hsn hsw hs
    exact ⟨hn, hw, hrn, lineKeep o hrw hr⟩
  | recvPromoteFail r j k v rest line o hr hb hs ho =>
    obtain ⟨hn, hw⟩ := lineOut .error hsn hsw hs
    exact ⟨hn, hw, hrn, lineKeep o hrw hr⟩
  | recvDirect r i line o hr hb hs ho =>
    obtain ⟨hn, hw⟩ := lineOut .value hsn hsw hs
    exact ⟨hn, hw, hrn, lineKeep o hrw hr⟩
  | recvWait r h0 hr hb hs =>
    obtain ⟨hn, hw⟩ := lineIn hrn hrw hr
    exact ⟨hsn, hsw, hn, hw⟩
  | dropSend i hi =>
    obtain ⟨hn, hw⟩ := lineDrop .stopped hsn hsw
    exact ⟨hn, hw, hrn, hrw⟩
  | dropRecv r hr =>
    obtain ⟨hn, hw⟩ := lineDrop .stopped hrn hrw
    exact ⟨hsn, hsw, hn, hw⟩
  | close => exact ⟨List.nodup_nil, lineStop _ hsw, List.nodup_nil, lineStop _ hrw⟩
  | requestStop => exact ⟨List.nodup_nil, lineStop _ hsw, List.nodup_nil, lineStop _ hrw⟩

/-- The accepted values that still have a place: handed over, buffered, or waiting
with their sender, in this order. -/
def line (s : Spec α) : List RecordId :=
  s.handed.map Handover.send ++ s.buffer.map Prod.fst ++ s.senders

/-- The values that went into the channel for good. -/
def Entered (s : Spec α) (i : RecordId) : Prop :=
  i ∈ s.handed.map Handover.send ∨ i ∈ s.buffer.map Prod.fst ∨ i ∈ s.discarded

structure Ordered (s : Spec α) : Prop where
  sublist : s.line.Sublist s.accepted
  nodup : s.accepted.Nodup
  known : ∀ i ∈ s.accepted, s.sent i ≠ .fresh

theorem Ordered.line_nodup (h : s.Ordered) : s.line.Nodup := h.sublist.nodup h.nodup

theorem Ordered.notMem_of_fresh (h : s.Ordered) {i : RecordId} (hi : s.sent i = .fresh) :
    i ∉ s.accepted :=
  fun hm => h.known i hm hi

theorem known_update {status : RecordId → Status SendOutcome} {l : List RecordId} {k : RecordId}
    {x : Status SendOutcome} (hx : x ≠ .fresh) (h : ∀ i ∈ l, status i ≠ .fresh) :
    ∀ i ∈ l, Function.update status k x i ≠ .fresh := by
  intro i hi
  by_cases hk : i = k
  · simpa [hk] using hx
  · simpa [hk] using h i hi

theorem known_snoc {status : RecordId → Status SendOutcome} {l : List RecordId} {k : RecordId}
    {x : Status SendOutcome} (hx : x ≠ .fresh) (h : ∀ i ∈ l, status i ≠ .fresh) :
    ∀ i ∈ l ++ [k], Function.update status k x i ≠ .fresh := by
  intro i hi
  by_cases hk : i = k
  · simpa [hk] using hx
  · simpa [hk] using h i (by simpa [hk] using hi)

/-- A send that enters at the back of the line. -/
theorem Ordered.enter {l : List RecordId} {k : RecordId} {x : Status SendOutcome}
    (h : s.Ordered) (hk : s.sent k = .fresh) (hx : x ≠ .fresh) (hl : l = s.line ++ [k]) :
    l.Sublist (s.accepted ++ [k]) ∧ (s.accepted ++ [k]).Nodup ∧
      ∀ i ∈ s.accepted ++ [k], Function.update s.sent k x i ≠ .fresh :=
  ⟨hl ▸ h.sublist.append_right [k], nodup_snoc h.nodup (h.notMem_of_fresh hk), known_snoc hx h.known⟩

theorem known_stopAll {status : RecordId → Status SendOutcome} {l line : List RecordId}
    {o : SendOutcome} (h : ∀ i ∈ l, status i ≠ .fresh) :
    ∀ i ∈ l, stopAll line status o i ≠ .fresh := by
  intro i hi
  by_cases hm : i ∈ line
  · simp [stopAll, hm]
  · simpa [stopAll, hm] using h i hi

theorem Step.ordered (h : Step s t) (hd : s.Discipline) (hs : s.Ordered) : t.Ordered := by
  have hsub := hs.sublist
  unfold line at hsub
  cases h with
  | refuseSend i o hi ho => exact ⟨hs.sublist, hs.nodup, known_update (by simp) hs.known⟩
  | refuseRecv r o hr ho => exact ⟨hs.sublist, hs.nodup, hs.known⟩
  | sendDirect i r rest o h0 hi hr ho =>
    obtain ⟨hb, hl⟩ := hd.alone (by simp [hr])
    obtain ⟨h1, h2, h3⟩ := hs.enter hi (x := .ended o) (by simp) rfl
    exact ⟨by simpa [line, hb, hl] using h1, h2, h3⟩
  | sendBuffer i o h0 hi hr hl hroom ho =>
    obtain ⟨h1, h2, h3⟩ := hs.enter hi (x := .ended o) (by simp) rfl
    exact ⟨by simpa [line, hl] using h1, h2, h3⟩
  | sendWait i h0 hi hr hfull =>
    obtain ⟨h1, h2, h3⟩ := hs.enter hi (x := .waiting) (by simp) rfl
    exact ⟨by simpa [line] using h1, h2, h3⟩
  | recvBuffer r j v rest o hr hb hl ho =>
    exact ⟨by simpa [line, hb] using hsub, hs.nodup, hs.known⟩
  | recvPromote r j k v rest line o hr hb hl ho =>
    exact ⟨by simpa [Spec.line, hb, hl] using hsub, hs.nodup, known_update (by simp) hs.known⟩
  | recvPromoteFail r j k v rest line o hr hb hl ho =>
    refine ⟨?_, hs.nodup, known_update (by simp) hs.known⟩
    refine List.Sublist.trans ?_ hsub
    simp [Spec.line, hb, hl]
  | recvDirect r i line o hr hb hl ho =>
    exact ⟨by simpa [Spec.line, hb, hl] using hsub, hs.nodup, known_update (by simp) hs.known⟩
  | recvWait r h0 hr hb hl => exact ⟨hs.sublist, hs.nodup, hs.known⟩
  | dropSend i hi =>
    refine ⟨?_, hs.nodup, known_update (by simp) hs.known⟩
    exact ((List.erase_sublist).append_left _).trans hsub
  | dropRecv r hr => exact ⟨hs.sublist, hs.nodup, hs.known⟩
  | close =>
    refine ⟨?_, hs.nodup, known_stopAll hs.known⟩
    exact ((List.nil_sublist _).append_left _).trans hsub
  | requestStop =>
    refine ⟨?_, hs.nodup, known_stopAll hs.known⟩
    refine List.Sublist.trans ?_ hsub
    simp [line]

/-- What became of every value: where it is agrees with what its sender was told. -/
structure Fates (s : Spec α) : Prop where
  discarded : ∀ i ∈ s.discarded, i ∈ s.accepted ∧ i ∉ s.line
  discarded_nodup : s.discarded.Nodup
  delivered : ∀ i o, s.sent i = .ended o → (o.Delivered ↔ s.Entered i)
  buffered : ∀ p ∈ s.buffer, p.2 = s.value p.1

theorem Ordered.waiting_not_entered (h : s.Ordered) (hf : s.Fates) {i : RecordId}
    (hi : i ∈ s.senders) : ¬ s.Entered i := by
  have hn := h.line_nodup
  have hline : i ∈ s.line := by simp [line, hi]
  unfold line at hn
  rw [List.nodup_append] at hn
  obtain ⟨-, -, hdis⟩ := hn
  rintro (hm | hm | hm)
  · exact hdis i (List.mem_append_left _ hm) i hi rfl
  · exact hdis i (List.mem_append_right _ hm) i hi rfl
  · exact (hf.discarded i hm).2 hline

theorem Ordered.fresh_not_entered (h : s.Ordered) (hf : s.Fates) {i : RecordId}
    (hi : s.sent i = .fresh) : ¬ s.Entered i := by
  have hna := h.notMem_of_fresh hi
  rintro (hm | hm | hm)
  · exact hna (h.sublist.subset (by simp [line, hm]))
  · exact hna (h.sublist.subset (by simp [line, hm]))
  · exact hna (hf.discarded i hm).1

/-- The fate of send `k` is decided; that of the others stays. -/
theorem delivered_update {k : RecordId} {o : SendOutcome} {E E' : RecordId → Prop}
    (h : ∀ i o, s.sent i = .ended o → (o.Delivered ↔ E i)) (hk : o.Delivered ↔ E' k)
    (hE : ∀ i, i ≠ k → (E' i ↔ E i)) :
    ∀ i o', Function.update s.sent k (.ended o) i = .ended o' → (o'.Delivered ↔ E' i) := by
  intro i o' hi
  by_cases hik : i = k
  · subst hik
    rw [Function.update_self, Status.ended.injEq] at hi
    exact hi ▸ hk
  · rw [Function.update_of_ne hik] at hi
    exact (h i o' hi).trans (hE i hik).symm

theorem delivered_stopAll {E : RecordId → Prop} {line : List RecordId}
    (h : ∀ i o, s.sent i = .ended o → (o.Delivered ↔ E i)) (hE : ∀ i ∈ line, ¬ E i) :
    ∀ i o, stopAll line s.sent .stopped i = .ended o → (o.Delivered ↔ E i) := by
  intro i o hi
  by_cases hm : i ∈ line
  · simp only [stopAll, if_pos hm, Status.ended.injEq] at hi
    subst hi
    simpa [SendOutcome.Delivered] using hE i hm
  · simp only [stopAll, if_neg hm] at hi
    exact h i o hi

theorem Ordered.discarded_enter (h : s.Ordered) (hf : s.Fates) {k : RecordId}
    (hk : s.sent k = .fresh) :
    ∀ i ∈ s.discarded, i ∈ s.accepted ++ [k] ∧ i ∉ s.line ++ [k] := by
  intro i hi
  obtain ⟨ha, hl⟩ := hf.discarded i hi
  have hik : i ≠ k := fun e => h.notMem_of_fresh hk (e ▸ ha)
  simp [ha, hl, hik]

theorem Step.fates (h : Step s t) (hd : s.Discipline) (ho : s.Ordered) (hf : s.Fates) :
    t.Fates := by
  have hbuf := hf.buffered
  cases h with
  | refuseSend i o hi hno =>
    have hne := ho.fresh_not_entered hf hi
    refine ⟨hf.discarded, hf.discarded_nodup, ?_, hbuf⟩
    exact delivered_update hf.delivered (iff_of_false hno hne) fun _ _ => Iff.rfl
  | refuseRecv r o hr hno => exact ⟨hf.discarded, hf.discarded_nodup, hf.delivered, hbuf⟩
  | sendDirect i r rest o h0 hi hr hde =>
    -- with a receiver waiting nothing is in line, so the value overtakes nobody
    obtain ⟨hb, hl⟩ := hd.alone (by simp [hr])
    refine ⟨?_, hf.discarded_nodup, ?_, hbuf⟩
    · simpa [line, hb, hl] using ho.discarded_enter hf hi
    · refine delivered_update hf.delivered (iff_of_true hde (by simp [Entered])) ?_
      intro j hj
      simp [Entered, hj]
  | sendBuffer i o h0 hi hr hl hroom hde =>
    refine ⟨?_, hf.discarded_nodup, ?_, ?_⟩
    · simpa [line, hl] using ho.discarded_enter hf hi
    · refine delivered_update hf.delivered (iff_of_true hde (by simp [Entered])) ?_
      intro j hj
      simp [Entered, hj]
    · intro p hp
      rcases List.mem_append.mp hp with hp | hp
      · exact hbuf p hp
      · rw [List.mem_singleton.mp hp]
  | sendWait i h0 hi hr hfull =>
    refine ⟨?_, hf.discarded_nodup, ?_, hbuf⟩
    · simpa [line] using ho.discarded_enter hf hi
    · intro j o hj
      by_cases hji : j = i
      · simp [hji] at hj
      · exact hf.delivered j o (by simpa [hji] using hj)
  | recvBuffer r j v rest o hr hb hl hgot =>
    have hdis := hf.discarded
    have hdel := hf.delivered
    simp only [line, Entered, hb] at hdis hdel
    refine ⟨by simpa [line] using hdis, hf.discarded_nodup, ?_, ?_⟩
    · intro i o' hi
      rw [hdel i o' hi]
      simp [Entered, or_assoc]
    · exact fun p hp => hbuf p (by simp [hb, hp])
  | recvPromote r j k v rest line o hr hb hl hgot =>
    have hdis := hf.discarded
    simp only [Spec.line, hb, hl] at hdis
    refine ⟨by simpa [Spec.line] using hdis, hf.discarded_nodup, ?_, ?_⟩
    · refine delivered_update hf.delivered ?_ ?_
      · exact iff_of_true (by simp [SendOutcome.Delivered]) (by simp [Entered])
      · intro i hi
        simp [Entered, hb, hi, or_assoc]
    · intro p hp
      rcases List.mem_append.mp hp with hp | hp
      · exact hbuf p (by simp [hb, hp])
      · rw [List.mem_singleton.mp hp]
  | recvPromoteFail r j k v rest line o hr hb hl hgot =>
    have hdis := hf.discarded
    simp only [Spec.line, hb, hl] at hdis
    refine ⟨?_, hf.discarded_nodup, ?_, fun p hp => hbuf p (by simp [hb, hp])⟩
    · intro i hi
      obtain ⟨ha, hn⟩ := hdis i hi
      refine ⟨ha, fun hm => hn ?_⟩
      simp only [Spec.line, List.map_append, List.map_cons, List.map_nil, List.mem_append,
        List.mem_cons, List.not_mem_nil, or_false] at hm ⊢
      tauto
    -- the send leaves the line without having entered, and it is told that it failed
    · have hne := ho.waiting_not_entered hf (i := k) (by simp [hl])
      refine delivered_update hf.delivered ?_ ?_
      · refine iff_of_false (by simp [SendOutcome.Delivered]) ?_
        simpa [Entered, hb, or_assoc] using hne
      · intro i hi
        simp [Entered, hb, or_assoc]
  | recvDirect r i line o hr hb hl hgot =>
    have hdis := hf.discarded
    simp only [Spec.line, hb, hl] at hdis
    refine ⟨by simpa [Spec.line, hb] using hdis, hf.discarded_nodup, ?_, hbuf⟩
    refine delivered_update hf.delivered ?_ ?_
    · exact iff_of_true (by simp [SendOutcome.Delivered]) (by simp [Entered])
    · intro j hj
      simp [Entered, hj]
  | recvWait r h0 hr hb hl => exact ⟨hf.discarded, hf.discarded_nodup, hf.delivered, hbuf⟩
  | dropSend i hi =>
    refine ⟨?_, hf.discarded_nodup, ?_, hbuf⟩
    · intro j hj
      obtain ⟨ha, hn⟩ := hf.discarded j hj
      refine ⟨ha, fun hm => hn ?_⟩
      exact ((List.erase_sublist).append_left _).subset hm
    · have hne := ho.waiting_not_entered hf hi
      refine delivered_update hf.delivered ?_ fun _ _ => Iff.rfl
      exact iff_of_false (by simp [SendOutcome.Delivered]) hne
  | dropRecv r hr => exact ⟨hf.discarded, hf.discarded_nodup, hf.delivered, hbuf⟩
  | close =>
    refine ⟨?_, hf.discarded_nodup, ?_, hbuf⟩
    · intro j hj
      obtain ⟨ha, hn⟩ := hf.discarded j hj
      refine ⟨ha, fun hm => hn ?_⟩
      exact ((List.nil_sublist _).append_left _).subset hm
    · exact delivered_stopAll hf.delivered fun i hi => ho.waiting_not_entered hf hi
  | requestStop =>
    -- what is in the buffer is discarded, and every waiting send ends as stopped
    have hline := ho.line_nodup
    unfold line at hline
    rw [List.nodup_append, List.nodup_append] at hline
    obtain ⟨⟨-, hbn, hhb⟩, -, -⟩ := hline
    refine ⟨?_, ?_, ?_, by simp⟩
    · intro i hi
      rcases List.mem_append.mp hi with hi | hi
      · obtain ⟨ha, hn⟩ := hf.discarded i hi
        exact ⟨ha, fun hm => hn (by simp only [line, List.map_nil, List.append_nil] at hm
                                    simp [line, hm])⟩
      · refine ⟨ho.sublist.subset (by simp [line, hi]), fun hm => ?_⟩
        simp only [line, List.map_nil, List.append_nil] at hm
        exact hhb i hm i hi rfl
    · rw [List.nodup_append]
      refine ⟨hf.discarded_nodup, hbn, ?_⟩
      rintro a ha b hb rfl
      exact (hf.discarded a ha).2 (by simp [line, hb])
    · refine delivered_stopAll ?_ ?_
      · intro i o hi
        rw [hf.delivered i o hi]
        simp only [Entered, List.map_nil, List.not_mem_nil, false_or, List.mem_append]
        tauto
      · intro i hi hm
        apply ho.waiting_not_entered hf hi
        simp only [Entered, List.map_nil, List.not_mem_nil, false_or, List.mem_append] at hm ⊢
        tauto

/-- Every value handed over is the one that was sent, and its receive ends with it. -/
structure Receipts (s : Spec α) : Prop where
  value : ∀ h ∈ s.handed, h.value = s.value h.send
  got : ∀ h ∈ s.handed, ∃ o, s.received h.recv = .ended o ∧ o.Got h.value
  nodup : (s.handed.map Handover.recv).Nodup

theorem Receipts.recv_ne (h : s.Receipts) {r : RecordId} (hr : ∀ o, s.received r ≠ .ended o) :
    ∀ x ∈ s.handed, x.recv ≠ r := by
  rintro x hx rfl
  obtain ⟨o, ho, -⟩ := h.got x hx
  exact hr o ho

/-- A receive that had no value yet changes its status. -/
theorem Receipts.keep (h : s.Receipts) {r : RecordId} (hr : ∀ o, s.received r ≠ .ended o)
    (x : Status (RecvOutcome α)) :
    ∀ y ∈ s.handed, ∃ o, Function.update s.received r x y.recv = .ended o ∧ o.Got y.value := by
  intro y hy
  rw [Function.update_of_ne (h.recv_ne hr y hy)]
  exact h.got y hy

/-- A receive that had no value yet is handed one. -/
theorem Receipts.hand (h : s.Receipts) {i r : RecordId} {v : α} {o : RecvOutcome α}
    (hr : ∀ o, s.received r ≠ .ended o) (hv : v = s.value i) (ho : o.Got v) :
    (∀ y ∈ s.handed ++ [⟨i, v, r⟩], y.value = s.value y.send) ∧
      (∀ y ∈ s.handed ++ [⟨i, v, r⟩],
        ∃ o', Function.update s.received r (.ended o) y.recv = .ended o' ∧ o'.Got y.value) ∧
      ((s.handed ++ [(⟨i, v, r⟩ : Handover α)]).map Handover.recv).Nodup := by
  refine ⟨?_, ?_, ?_⟩
  · intro y hy
    rcases List.mem_append.mp hy with hy | hy
    · exact h.value y hy
    · rw [List.mem_singleton.mp hy, hv]
  · intro y hy
    rcases List.mem_append.mp hy with hy | hy
    · exact h.keep hr _ y hy
    · rw [List.mem_singleton.mp hy]
      exact ⟨o, by simp, ho⟩
  · rw [List.map_append]
    refine nodup_snoc h.nodup fun hm => ?_
    obtain ⟨y, hy, hyr⟩ := List.mem_map.mp hm
    exact h.recv_ne hr y hy hyr

theorem Step.receipts (h : Step s t) (hl : s.Lines) (hf : s.Fates) (hs : s.Receipts) :
    t.Receipts := by
  cases h with
  | refuseSend | sendBuffer | sendWait | dropSend => exact ⟨hs.value, hs.got, hs.nodup⟩
  | refuseRecv r o hr ho => exact ⟨hs.value, hs.keep (by simp [hr]) _, hs.nodup⟩
  | sendDirect i r rest o h0 hi hr ho =>
    have hw := (hl.receivers_waiting r).mp (by simp [hr])
    obtain ⟨h1, h2, h3⟩ := hs.hand (r := r) (o := .value (some (s.value i))) (by simp [hw])
      rfl (.inl rfl)
    exact ⟨h1, h2, h3⟩
  | recvBuffer r j v rest o hr hb _ ho =>
    obtain ⟨h1, h2, h3⟩ := hs.hand (r := r) (by simp [hr]) (hf.buffered (j, v) (by simp [hb])) ho
    exact ⟨h1, h2, h3⟩
  | recvPromote r j k v rest line o hr hb _ ho =>
    obtain ⟨h1, h2, h3⟩ := hs.hand (r := r) (by simp [hr]) (hf.buffered (j, v) (by simp [hb])) ho
    exact ⟨h1, h2, h3⟩
  | recvPromoteFail r j k v rest line o hr hb _ ho =>
    obtain ⟨h1, h2, h3⟩ := hs.hand (r := r) (by simp [hr]) (hf.buffered (j, v) (by simp [hb])) ho
    exact ⟨h1, h2, h3⟩
  | recvDirect r i line o hr hb _ ho =>
    obtain ⟨h1, h2, h3⟩ := hs.hand (r := r) (by simp [hr]) rfl ho
    exact ⟨h1, h2, h3⟩
  | recvWait r h0 hr hb _ => exact ⟨hs.value, hs.keep (by simp [hr]) _, hs.nodup⟩
  | dropRecv r hr =>
    have hw := (hl.receivers_waiting r).mp hr
    exact ⟨hs.value, hs.keep (by simp [hw]) _, hs.nodup⟩
  | close | requestStop =>
    refine ⟨hs.value, fun y hy => ?_, hs.nodup⟩
    obtain ⟨o, ho, hgot⟩ := hs.got y hy
    have hm : y.recv ∉ s.receivers := by simp [hl.receivers_waiting, ho]
    exact ⟨o, by simp [stopAll, hm, ho], hgot⟩

/-- Values are dropped from the buffer by `request_stop` alone. -/
theorem Step.purged (h : Step s t) (hs : s.discarded ≠ [] → s.stopped = true) :
    t.discarded ≠ [] → t.stopped = true := by
  cases h with
  | requestStop => exact fun _ => rfl
  | _ => exact hs

structure Inv (s : Spec α) : Prop where
  discipline : s.Discipline
  lines : s.Lines
  ordered : s.Ordered
  fates : s.Fates
  receipts : s.Receipts
  purged : s.discarded ≠ [] → s.stopped = true

theorem Step.inv (h : Step s t) (hs : s.Inv) : t.Inv :=
  ⟨h.discipline hs.discipline, h.lines hs.lines, h.ordered hs.discipline hs.ordered,
    h.fates hs.discipline hs.ordered hs.fates, h.receipts hs.lines hs.fates hs.receipts,
    h.purged hs.purged⟩

theorem inv_initial (capacity : ℕ) (value : RecordId → α) :
    ({ capacity, value } : Spec α).Inv where
  discipline := ⟨by simp, by simp, by simp, by simp, by simp⟩
  lines := ⟨by simp, by simp, by simp, by simp⟩
  ordered := ⟨by simp [line], by simp, by simp⟩
  fates := ⟨by simp, by simp, by simp, by simp⟩
  receipts := ⟨by simp, by simp, by simp⟩
  purged := by simp

/-- A send that has ended stays as it ended. -/
theorem Step.sent_ended (h : Step s t) (hl : s.Lines) {i : RecordId} {o : SendOutcome}
    (hi : s.sent i = .ended o) : t.sent i = .ended o := by
  have update {k : RecordId} {x : Status SendOutcome} (hk : ∀ o, s.sent k ≠ .ended o) :
      Function.update s.sent k x i = .ended o := by
    have hne : i ≠ k := fun e => hk o (e ▸ hi)
    rw [Function.update_of_ne hne, hi]
  have waiting {k : RecordId} (hk : k ∈ s.senders) : ∀ o, s.sent k ≠ .ended o := by
    simp [(hl.senders_waiting k).mp hk]
  have stop : stopAll s.senders s.sent .stopped i = .ended o := by
    have hm : i ∉ s.senders := fun hm => waiting hm o hi
    rw [stopAll, if_neg hm, hi]
  cases h with
  | refuseSend k o' hk ho => exact update (by simp [hk])
  | sendDirect k r rest o' h0 hk hr ho => exact update (by simp [hk])
  | sendBuffer k o' h0 hk hr hs hroom ho => exact update (by simp [hk])
  | sendWait k h0 hk hr hfull => exact update (by simp [hk])
  | recvPromote r j k v rest line o' hr hb hs ho => exact update (waiting (by simp [hs]))
  | recvPromoteFail r j k v rest line o' hr hb hs ho => exact update (waiting (by simp [hs]))
  | recvDirect r k line o' hr hb hs ho => exact update (waiting (by simp [hs]))
  | dropSend k hk => exact update (waiting hk)
  | close => exact stop
  | requestStop => exact stop
  | _ => exact hi

theorem Step.shut_mono (h : Step s t) (hs : s.shut = true) : t.shut = true := by
  cases h with
  | close => simp [shut]
  | requestStop => simp [shut]
  | _ => exact hs

end CCForge.Channel.Spec
