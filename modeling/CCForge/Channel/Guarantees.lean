import CCForge.Channel.Refinement

/-!
# What a bounded channel guarantees

The invariants of the abstract channel, read back on the channel itself.
-/

namespace CCForge.Channel

variable {α : Type*} {s t : State α} {a : Spec α}

theorem Tracks.eq_of_mem {β : Type*} {phase : Phase} {done : Bool} {outcomes inFlight : List β}
    {st : Status β} (h : Tracks phase done outcomes inFlight st) {o : β} (ho : o ∈ outcomes) :
    st = .ended o := by
  cases st with
  | fresh => simp [h.2.2.1] at ho
  | waiting => simp [h.2.2.1] at ho
  | ended x =>
    rcases h.2 with ⟨-, hout, -⟩ | ⟨-, hout, -⟩
    · have he : o = x := by simpa [hout] using ho
      rw [he]
    · simp [hout] at ho

/-- An operation that started is completed, about to be completed, or in its line. -/
theorem Tracks.place {β : Type*} {done : Bool} {outcomes inFlight : List β} {st : Status β}
    {line : List RecordId} {i : RecordId} (h : Tracks .started done outcomes inFlight st)
    (hl : line.Nodup) (hw : i ∈ line ↔ st = .waiting) :
    outcomes.length + inFlight.length + line.count i = 1 := by
  cases st with
  | fresh => exact absurd rfl h.1
  | waiting => simp [h.2.2.1, h.2.2.2, List.count_eq_one_of_mem hl (hw.mpr rfl)]
  | ended o =>
    have hc : line.count i = 0 := List.count_eq_zero_of_not_mem (by simp [hw])
    rcases h.2 with ⟨-, hout, hin⟩ | ⟨-, hout, hin⟩ <;> simp [hout, hin, hc]

theorem Tracks.length_le {β : Type*} {phase : Phase} {done : Bool} {outcomes inFlight : List β}
    {st : Status β} (h : Tracks phase done outcomes inFlight st) : outcomes.length ≤ 1 := by
  cases st with
  | fresh => simp [h.2.2.1]
  | waiting => simp [h.2.2.1]
  | ended o => rcases h.2 with ⟨-, hout, -⟩ | ⟨-, hout, -⟩ <;> simp [hout]

/-! ## Delivery -/

/-- What has become of the values sent so far. -/
structure Delivery (s : State α) : Prop where
  /-- Values are handed over in the order in which they were accepted. -/
  inOrder : (s.handed.map fun x => (x.send, x.value)).Sublist
    (s.accepted.map fun i => (i, (s.sends i).value))
  /-- No value is handed to two receivers, and no receiver gets two values. -/
  sendOnce : (s.handed.map Handover.send).Nodup
  recvOnce : (s.handed.map Handover.recv).Nodup
  /-- The receive of a value handed over ends with that value, or is about to. -/
  received : ∀ x ∈ s.handed, ∃ o : RecvOutcome α, o.Got x.value ∧
    ((s.recvs x.recv).outcomes = [o] ∨ (s.recvs x.recv).outcomes = [] ∧
      (recvsOf x.recv s.batches.flatten).map (State.recvOutcome (s.recvs x.recv)) = [o])
  /-- A send that ended without delivering is never handed to anybody, now or later. -/
  refused : ∀ i, ∀ o ∈ (s.sends i).outcomes, ¬ o.Delivered → ∀ t as, run step s as = some t →
    i ∉ t.handed.map Handover.send
  /-- A delivered value was received exactly once, is in the buffer, or was thrown away
  by `request_stop`, and only one of these. -/
  delivered : ∀ i, ∀ o ∈ (s.sends i).outcomes, o.Delivered →
    ((s.handed.map Handover.send).count i = 1 ∧ i ∉ s.buffer.map Prod.fst ∧ i ∉ s.discarded) ∨
    (i ∉ s.handed.map Handover.send ∧ (s.buffer.map Prod.fst).count i = 1 ∧ i ∉ s.discarded) ∨
    (i ∉ s.handed.map Handover.send ∧ i ∉ s.buffer.map Prod.fst ∧ s.discarded.count i = 1)
  discardedByStop : s.discarded ≠ [] → s.stopped = true

theorem refused_never_handed (h : Refines s a) (ha : a.Inv) {i : RecordId} {o : SendOutcome}
    (ho : o ∈ (s.sends i).outcomes) (hno : ¬ o.Delivered) {as : List Label}
    (ht : run step s as = some t) : i ∉ t.handed.map Handover.send := by
  have hended : a.sent i = .ended o := (h.sent i).tracks.eq_of_mem ho
  obtain ⟨b, href, hb, hstill⟩ := simulated_run (P := fun b => b.sent i = .ended o)
    (fun b c hb hbc hi => hbc.sent_ended hb.lines hi) h ha hended ht
  intro hm
  apply hno
  rw [hb.fates.delivered i o hstill]
  exact .inl (by rw [href.handed]; exact hm)

theorem delivered_place (h : Refines s a) (ha : a.Inv) {i : RecordId} {o : SendOutcome}
    (ho : o ∈ (s.sends i).outcomes) (hd : o.Delivered) :
    ((s.handed.map Handover.send).count i = 1 ∧ i ∉ s.buffer.map Prod.fst ∧ i ∉ s.discarded) ∨
    (i ∉ s.handed.map Handover.send ∧ (s.buffer.map Prod.fst).count i = 1 ∧ i ∉ s.discarded) ∨
    (i ∉ s.handed.map Handover.send ∧ i ∉ s.buffer.map Prod.fst ∧ s.discarded.count i = 1) := by
  have hentered := (ha.fates.delivered i o ((h.sent i).tracks.eq_of_mem ho)).mp hd
  have hnodup := ha.ordered.line_nodup
  have hdis := ha.fates.discarded
  have hdn := ha.fates.discarded_nodup
  unfold Spec.Entered at hentered
  unfold Spec.line at hnodup hdis
  rw [h.handed, h.buffer, h.discarded] at hentered
  rw [h.handed, h.buffer] at hnodup hdis
  rw [h.discarded] at hdis hdn
  rw [List.nodup_append, List.nodup_append] at hnodup
  obtain ⟨⟨hhn, hbn, hhb⟩, -, -⟩ := hnodup
  rcases hentered with hm | hm | hm
  · refine .inl ⟨List.count_eq_one_of_mem hhn hm, fun hb => hhb i hm i hb rfl, fun hx => ?_⟩
    exact (hdis i hx).2 (by simp [hm])
  · refine .inr (.inl ⟨fun hx => hhb i hx i hm rfl, List.count_eq_one_of_mem hbn hm, fun hx => ?_⟩)
    exact (hdis i hx).2 (by simp [hm])
  · have hnot := (hdis i hm).2
    simp only [List.mem_append, not_or] at hnot
    exact .inr (.inr ⟨hnot.1.1, hnot.1.2, List.count_eq_one_of_mem hdn hm⟩)

theorem handed_inOrder (h : Refines s a) (ha : a.Inv) :
    (s.handed.map fun x => (x.send, x.value)).Sublist
      (s.accepted.map fun i => (i, (s.sends i).value)) := by
  have hsub : (s.handed.map Handover.send).Sublist s.accepted := by
    rw [← h.handed, ← h.accepted]
    refine List.Sublist.trans ?_ ha.ordered.sublist
    rw [Spec.line, List.append_assoc]
    exact List.sublist_append_left _ _
  have hmap : (s.handed.map fun x => (x.send, x.value)) =
      (s.handed.map Handover.send).map fun i => (i, (s.sends i).value) := by
    rw [List.map_map]
    refine List.map_congr_left fun x hx => ?_
    have hx' : x ∈ a.handed := by rw [h.handed]; exact hx
    rw [ha.receipts.value x hx', (h.sent x.send).value]
    rfl
  rw [hmap]
  exact hsub.map _

/-- For every capacity, any senders and receivers and any interleaving: no value is lost,
duplicated or reordered. -/
theorem channel_delivery (h : Reachable step Initial s) : Delivery s := by
  obtain ⟨a, href, ha⟩ := reachable_refines h
  refine ⟨handed_inOrder href ha, ?_, ?_, ?_, ?_, ?_, ?_⟩
  · have hn := ha.ordered.line_nodup
    unfold Spec.line at hn
    rw [href.handed, List.append_assoc] at hn
    exact (List.nodup_append.mp hn).1
  · rw [← href.handed]
    exact ha.receipts.nodup
  · intro x hx
    obtain ⟨o, ho, hgot⟩ := ha.receipts.got x (by rw [href.handed]; exact hx)
    have ht := (href.received x.recv).tracks
    rw [ho] at ht
    refine ⟨o, hgot, ?_⟩
    rcases ht.2 with ⟨-, hout, -⟩ | ⟨-, hout, hin⟩
    · exact .inl hout
    · exact .inr ⟨hout, hin⟩
  · exact fun i o ho hno t as ht => refused_never_handed href ha ho hno ht
  · exact fun i o ho hd => delivered_place href ha ho hd
  · rw [← href.discarded, ← href.stopped]
    exact ha.purged

/-- A channel of capacity one whose send `i` carries `10 + i`. -/
def unitChannel : State ℕ :=
  { capacity := 1, sends := fun i => { value := 10 + i }, recvs := fun _ => {} }

theorem unitChannel_initial : Initial unitChannel := ⟨1, fun i => 10 + i, rfl⟩

/-- The start of send `i` up to and including its two looks at the flag. -/
def waitSend (i : RecordId) : List Label :=
  [.checkSend i false, .installSend i true true, .startSend i true, .recheckSend i]

/-- Send 0 is buffered, send 1 waits, and a receive takes the first and promotes the
second: one value handed over, one in the buffer, both senders told so. -/
theorem channel_delivery_promoted : ∃ s : State ℕ, Reachable step Initial s ∧
    s.handed = [⟨0, 10, 0⟩] ∧ s.buffer = [(1, 11)] ∧ (s.sends 1).outcomes = [.value] ∧
    Delivery s := by
  obtain ⟨s, hs, h1, h2, h3⟩ : ∃ s : State ℕ,
      run step unitChannel ([.trySend 0 true] ++ waitSend 1 ++ [.tryRecv 0 true, .complete 2]) =
        some s ∧ s.handed = [⟨0, 10, 0⟩] ∧ s.buffer = [(1, 11)] ∧
        (s.sends 1).outcomes = [.value] := ⟨_, rfl, rfl, rfl, rfl⟩
  have hr : Reachable step Initial s := ⟨unitChannel, unitChannel_initial, _, hs⟩
  exact ⟨s, hr, h1, h2, h3, channel_delivery hr⟩

/-! ## Completion -/

/-- Where every started operation is, and what a finished callback or a shutdown leaves. -/
structure Completes (s : State α) : Prop where
  sendOnce : ∀ i, (s.sends i).outcomes.length ≤ 1
  recvOnce : ∀ r, (s.recvs r).outcomes.length ≤ 1
  /-- Completed, about to be completed, or in the line exactly once; never two of these. -/
  sendPlace : ∀ i, (s.sends i).phase = .started →
    (s.sends i).outcomes.length + (sendsOf i s.batches.flatten).length +
      s.pendingSends.head.count i = 1
  recvPlace : ∀ r, (s.recvs r).phase = .started →
    (s.recvs r).outcomes.length + (recvsOf r s.batches.flatten).length +
      s.pendingRecvs.head.count r = 1
  sendCancelled : ∀ i, (s.sends i).stopCallback = .finished → i ∉ s.pendingSends.head
  recvCancelled : ∀ r, (s.recvs r).stopCallback = .finished → r ∉ s.pendingRecvs.head
  /-- The lines are empty after `close` or `request_stop`, and stay so. -/
  shut : (s.closed = true ∨ s.stopped = true) → ∀ t as, run step s as = some t →
    t.pendingSends = {} ∧ t.pendingRecvs = {}

theorem RecordQueue.Linked.eq_nil {q : RecordQueue} (h : q.Linked) (hq : q.head = []) :
    q = {} := by
  obtain ⟨head, tail⟩ := q
  have ht : tail = none := by simpa [show head = [] from hq] using h.tail_eq
  rw [show head = [] from hq, ht]

theorem shut_lines_empty (h : Refines s a) (ha : a.Inv)
    (hshut : s.closed = true ∨ s.stopped = true) {as : List Label} (ht : run step s as = some t) :
    t.pendingSends = {} ∧ t.pendingRecvs = {} := by
  have hs : a.shut = true := by
    rw [h.shut]
    rcases hshut with hc | hc <;> simp [hc]
  obtain ⟨b, href, hb, hbs⟩ := simulated_run (P := fun b => b.shut = true)
    (fun b c _ hbc hb => hbc.shut_mono hb) h ha hs ht
  obtain ⟨h1, h2⟩ := hb.discipline.shut hbs
  exact ⟨href.linkedSends.eq_nil (by rw [← href.senders, h1]),
    href.linkedRecvs.eq_nil (by rw [← href.receivers, h2])⟩

/-- Every operation is completed exactly once and no cancellation is lost, in every
interleaving of starts, stop callbacks, hand-overs and shutdown. -/
theorem channel_completes (h : Reachable step Initial s) : Completes s := by
  obtain ⟨a, href, ha⟩ := reachable_refines h
  refine ⟨fun i => (href.sent i).tracks.length_le, fun r => (href.received r).tracks.length_le,
    ?_, ?_, ?_, ?_, fun hs t as ht => shut_lines_empty href ha hs ht⟩
  · intro i hi
    have ht := (href.sent i).tracks
    rw [hi] at ht
    refine ht.place href.linkedSends.nodup ?_
    rw [← href.senders]
    exact ha.lines.senders_waiting i
  · intro r hr
    have ht := (href.received r).tracks
    rw [hr] at ht
    have hp := ht.place (i := r) href.linkedRecvs.nodup (by
      rw [← href.receivers]
      exact ha.lines.receivers_waiting r)
    simpa using hp
  · intro i hi hm
    rw [← href.senders, ha.lines.senders_waiting] at hm
    exact (href.sent i).uncancelled hm hi
  · intro r hr hm
    rw [← href.receivers, ha.lines.receivers_waiting] at hm
    exact (href.received r).uncancelled hm hr

/-- The callback of a waiting send runs to its end: the send has left the line and its
completion is the only trace of it. -/
theorem channel_completes_cancelled : ∃ s : State ℕ, Reachable step Initial s ∧
    (s.sends 1).phase = .started ∧ (s.sends 1).stopCallback = .finished ∧
    s.pendingSends.head = [2] ∧ Completes s := by
  obtain ⟨s, hs, h1, h2, h3⟩ : ∃ s : State ℕ,
      run step unitChannel ([.trySend 0 true] ++ waitSend 1 ++ waitSend 2 ++
        [.flagSend 1, .cancelSend 1]) = some s ∧ (s.sends 1).phase = .started ∧
        (s.sends 1).stopCallback = .finished ∧ s.pendingSends.head = [2] :=
    ⟨_, rfl, rfl, rfl, rfl⟩
  have hr : Reachable step Initial s := ⟨unitChannel, unitChannel_initial, _, hs⟩
  exact ⟨s, hr, h1, h2, h3, channel_completes hr⟩

/-! ## Queue discipline -/

/-- The steps in which a promotion may fail. -/
def Label.FailsPromotion (l : Label) : Prop :=
  ∃ r, l = .startRecv r false ∨ l = .tryRecv r false

structure QueueDiscipline (s : State α) : Prop where
  bounded : s.buffer.length ≤ s.capacity
  receiverAlone : s.pendingRecvs.head ≠ [] → s.buffer = [] ∧ s.pendingSends.head = []
  /-- While a sender waits, the buffer misses exactly the slots of the promotions that
  failed since the line was last empty. -/
  senderFull : s.pendingSends.head ≠ [] → s.buffer.length + s.failedPromotions = s.capacity
  /-- An open channel refuses a `try_send` for the same reason only. -/
  refused : ∀ i allocated, (s.stopped || s.closed) = false →
    (s.trySend i allocated).batches = s.batches ++ [[.send i (.returned false)]] →
    s.buffer.length + s.failedPromotions = s.capacity

theorem Refines.queueDiscipline (h : Refines s a) (ha : a.Inv) : QueueDiscipline s := by
  obtain ⟨hbound, halone, hfull, hsettled, -⟩ := ha.discipline
  rw [h.buffer, h.capacity] at hbound
  rw [h.receivers, h.buffer, h.senders] at halone
  rw [h.senders, h.buffer, h.failed, h.capacity] at hfull
  rw [h.senders, h.failed] at hsettled
  refine ⟨hbound, halone, hfull, fun i allocated hopen hrefused => ?_⟩
  by_cases hs : s.pendingSends.head = []
  · have hz := hsettled hs
    by_contra hne
    have hroom : s.buffer.length < s.capacity := by omega
    -- with a free slot and nobody waiting every branch of `try_send` returns something else
    revert hrefused
    cases hr : s.pendingRecvs.head with
    | cons r rest => simp [State.trySend, hopen, RecordQueue.popFront, hr]
    | nil =>
      cases allocated <;>
        simp [State.trySend, hopen, RecordQueue.popFront, RecordQueue.empty, hr, hs, hroom]
  · exact hfull hs

theorem promote_failed (s : State α) :
    (s.promoteOneSendLocked true).1.failedPromotions = s.failedPromotions := by
  unfold State.promoteOneSendLocked
  repeat' split
  all_goals first | rfl | contradiction

theorem receive_failed {r : RecordId} {p : State α × List Completion}
    (h : s.receiveLocked r true = some p) : p.1.failedPromotions = s.failedPromotions := by
  unfold State.receiveLocked at h
  split at h
  · cases h
    exact promote_failed _
  · split at h
    · cases h
      rfl
    · cases h

/-- Only a failed promotion counts as one. -/
theorem step_failed {l : Label} (hl : ¬ l.FailsPromotion) (h0 : s.failedPromotions = 0)
    (h : step s l = some t) : t.failedPromotions = 0 := by
  have hstart : ∀ r, l ≠ .startRecv r false := fun r hr => hl ⟨r, .inl hr⟩
  have htry : ∀ r, l ≠ .tryRecv r false := fun r hr => hl ⟨r, .inr hr⟩
  cases l with
  | startRecv r allocated =>
    cases allocated with
    | false => exact absurd rfl (hstart r)
    | true =>
      simp only [step, Option.ite_none_right_eq_some, Option.some.injEq] at h
      obtain ⟨-, rfl⟩ := h
      simp only [State.startRecv]
      split
      · next u _ hr =>
        have hu : u.failedPromotions = 0 := (receive_failed hr).trans h0
        simp [hu]
      · repeat' split
        all_goals simp [h0]
  | tryRecv r allocated =>
    cases allocated with
    | false => exact absurd rfl (htry r)
    | true =>
      simp only [step, Option.ite_none_right_eq_some, Option.some.injEq] at h
      obtain ⟨-, rfl⟩ := h
      simp only [State.tryRecv]
      split
      · next u _ hr =>
        have hu : u.failedPromotions = 0 := (receive_failed hr).trans h0
        simp [hu]
      · simp [h0]
  | complete batch =>
    simp only [step] at h
    split at h
    · next c rest _ =>
      cases h
      cases c <;> simp only [State.complete, State.completeSend, State.completeRecv] <;>
        split <;> exact h0
    · cases h
  | _ =>
    simp only [step, Option.ite_none_right_eq_some, Option.some.injEq] at h
    obtain ⟨-, rfl⟩ := h
    try simp only [State.startSend, State.recheckSend, State.recheckRecv, State.trySend,
      State.close, State.requestStop, State.cancelSend, State.cancelRecv]
    repeat' split
    all_goals simp [h0]

theorem run_failed {as : List Label} (hall : ∀ l ∈ as, ¬ l.FailsPromotion)
    (h0 : s.failedPromotions = 0) (h : run step s as = some t) : t.failedPromotions = 0 := by
  induction as generalizing s with
  | nil =>
    cases h
    exact h0
  | cons l as ih =>
    obtain ⟨u, hu, ht⟩ := run_cons h
    exact ih (fun l' hl' => hall l' (List.mem_cons_of_mem l hl'))
      (step_failed (hall l List.mem_cons_self) h0 hu) ht

/-- The buffer stays within its capacity, receivers wait only for an empty channel and
senders only for a full one, up to the slots that failed promotions left behind. -/
theorem channel_discipline {s0 : State α} (h0 : Initial s0) {as : List Label}
    (h : run step s0 as = some s) :
    QueueDiscipline s ∧ ((∀ l ∈ as, ¬ l.FailsPromotion) → s.failedPromotions = 0) := by
  obtain ⟨a, href, ha⟩ := reachable_refines ⟨s0, h0, as, h⟩
  refine ⟨href.queueDiscipline ha, fun hall => run_failed hall ?_ h⟩
  obtain ⟨capacity, values, rfl⟩ := h0
  rfl

/-- One value buffered and one sender behind it, with no failure on the way. -/
theorem channel_discipline_full : ∃ s : State ℕ,
    run step unitChannel ([.trySend 0 true] ++ waitSend 1) = some s ∧
    s.pendingSends.head = [1] ∧ s.buffer = [(0, 10)] ∧ QueueDiscipline s ∧
    s.failedPromotions = 0 := by
  obtain ⟨s, hs, h1, h2⟩ : ∃ s : State ℕ,
      run step unitChannel ([.trySend 0 true] ++ waitSend 1) = some s ∧
        s.pendingSends.head = [1] ∧ s.buffer = [(0, 10)] := ⟨_, rfl, rfl, rfl⟩
  obtain ⟨hd, hf⟩ := channel_discipline unitChannel_initial hs
  refine ⟨s, hs, h1, h2, hd, hf ?_⟩
  rintro l hl ⟨r, hr⟩
  rcases hr with rfl | rfl <;> simp [waitSend] at hl

/-- The promotion of send 1 fails: send 2 waits beside an empty buffer of capacity one,
and a `try_send` is refused although the slot is free. -/
theorem failed_promotion_leaves_slot : ∃ s t : State ℕ, Reachable step Initial s ∧
    s.pendingSends.head = [2] ∧ s.buffer = [] ∧ s.capacity = 1 ∧ s.closed = false ∧
    s.stopped = false ∧ step s (.trySend 3 true) = some t ∧
    t.batches = s.batches ++ [[.send 3 (.returned false)]] := by
  refine ⟨_, _, ⟨unitChannel, unitChannel_initial,
    [.trySend 0 true] ++ waitSend 1 ++ waitSend 2 ++ [.tryRecv 0 false], rfl⟩,
    rfl, rfl, rfl, rfl, rfl, rfl, rfl⟩

end CCForge.Channel
