import CCForge.Channel.SpecInvariants

/-!
# The channel refines the abstract channel

An abstract operation is ended as soon as a locked section has decided its outcome;
in the channel the completion may still be in a batch. `Tracks` ties the two: exactly
one place knows the outcome, and it is the same outcome.
-/

namespace CCForge.Channel

variable {α : Type*}

/-! ## Completions that are still to be run -/

def sendsOf (i : RecordId) (actions : List Completion) : List SendOutcome :=
  actions.filterMap fun
    | .send j o => if j = i then some o else none
    | .recv _ _ => none

def recvsOf (r : RecordId) (actions : List Completion) : List RecvSignal :=
  actions.filterMap fun
    | .send _ _ => none
    | .recv j o => if j = r then some o else none

@[simp] theorem sendsOf_nil (i : RecordId) : sendsOf i [] = [] := rfl

@[simp] theorem sendsOf_send (i j : RecordId) (o : SendOutcome) (l : List Completion) :
    sendsOf i (.send j o :: l) = if j = i then o :: sendsOf i l else sendsOf i l := by
  by_cases h : j = i <;> simp [sendsOf, h]

@[simp] theorem sendsOf_recv (i r : RecordId) (o : RecvSignal) (l : List Completion) :
    sendsOf i (.recv r o :: l) = sendsOf i l := rfl

@[simp] theorem sendsOf_append (i : RecordId) (l m : List Completion) :
    sendsOf i (l ++ m) = sendsOf i l ++ sendsOf i m := List.filterMap_append

@[simp] theorem recvsOf_nil (r : RecordId) : recvsOf r [] = [] := rfl

@[simp] theorem recvsOf_recv (r j : RecordId) (o : RecvSignal) (l : List Completion) :
    recvsOf r (.recv j o :: l) = if j = r then o :: recvsOf r l else recvsOf r l := by
  by_cases h : j = r <;> simp [recvsOf, h]

@[simp] theorem recvsOf_send (r i : RecordId) (o : SendOutcome) (l : List Completion) :
    recvsOf r (.send i o :: l) = recvsOf r l := rfl

@[simp] theorem recvsOf_append (r : RecordId) (l m : List Completion) :
    recvsOf r (l ++ m) = recvsOf r l ++ recvsOf r m := List.filterMap_append

@[simp] theorem sendsOf_map_recv (i : RecordId) (l : List RecordId) (o : RecvSignal) :
    sendsOf i (l.map (Completion.recv · o)) = [] := by
  simp [sendsOf, List.filterMap_map]

@[simp] theorem recvsOf_map_send (r : RecordId) (l : List RecordId) (o : SendOutcome) :
    recvsOf r (l.map (Completion.send · o)) = [] := by
  simp [recvsOf, List.filterMap_map]

theorem sendsOf_map_send {l : List RecordId} (hl : l.Nodup) (i : RecordId) (o : SendOutcome) :
    sendsOf i (l.map (Completion.send · o)) = if i ∈ l then [o] else [] := by
  induction l with
  | nil => rfl
  | cons k rest ih =>
    rw [List.nodup_cons] at hl
    by_cases hk : k = i
    · subst hk
      simp [ih hl.2, hl.1]
    · simp [hk, ih hl.2, Ne.symm hk]

theorem recvsOf_map_recv {l : List RecordId} (hl : l.Nodup) (r : RecordId) (o : RecvSignal) :
    recvsOf r (l.map (Completion.recv · o)) = if r ∈ l then [o] else [] := by
  induction l with
  | nil => rfl
  | cons k rest ih =>
    rw [List.nodup_cons] at hl
    by_cases hk : k = r
    · subst hk
      simp [ih hl.2, hl.1]
    · simp [hk, ih hl.2, Ne.symm hk]

/-- The completions of a batch come off its front; the others stay. -/
theorem flatten_set {batches : List (List Completion)} {k : ℕ} {c : Completion}
    {rest : List Completion} (h : batches[k]? = some (c :: rest)) :
    batches.flatten.Perm (c :: (batches.set k rest).flatten) := by
  induction batches generalizing k with
  | nil => simp at h
  | cons b bs ih =>
    cases k with
    | zero =>
      have hb : b = c :: rest := by simpa using h
      simp [hb]
    | succ k =>
      have hp := ih (k := k) (by simpa using h)
      simp only [List.set_cons_succ, List.flatten_cons]
      exact (hp.append_left b).trans List.perm_middle

/-! ## Where an outcome is -/

/-- `inFlight` are the completions of the operation that no thread has run yet. -/
def Tracks {β : Type*} (phase : Phase) (done : Bool) (outcomes inFlight : List β) :
    Status β → Prop
  | .fresh => phase ≠ .started ∧ done = false ∧ outcomes = [] ∧ inFlight = []
  | .waiting => phase = .started ∧ done = false ∧ outcomes = [] ∧ inFlight = []
  | .ended o => phase = .started ∧
      ((done = true ∧ outcomes = [o] ∧ inFlight = []) ∨
        (done = false ∧ outcomes = [] ∧ inFlight = [o]))

namespace Tracks

variable {β : Type*} {phase : Phase} {done : Bool} {outcomes inFlight : List β} {st : Status β}

theorem settle (h : Tracks phase done outcomes inFlight st) (hst : ∀ o, st ≠ .ended o) (o : β) :
    Tracks .started done outcomes (inFlight ++ [o]) (.ended o) := by
  cases st with
  | fresh => exact ⟨rfl, .inr ⟨h.2.1, h.2.2.1, by simp [h.2.2.2]⟩⟩
  | waiting => exact ⟨rfl, .inr ⟨h.2.1, h.2.2.1, by simp [h.2.2.2]⟩⟩
  | ended x => exact absurd rfl (hst x)

theorem wait (h : Tracks phase done outcomes inFlight .fresh) :
    Tracks .started done outcomes inFlight .waiting :=
  ⟨rfl, h.2⟩

theorem advance {phase' : Phase} (h : Tracks phase done outcomes inFlight st)
    (hp : phase ≠ .started) (hp' : phase' ≠ .started) :
    Tracks phase' done outcomes inFlight st := by
  cases st with
  | fresh => exact ⟨hp', h.2⟩
  | waiting => exact absurd h.1 hp
  | ended x => exact absurd h.1 hp

theorem fresh_of_phase (h : Tracks phase done outcomes inFlight st) (hp : phase ≠ .started) :
    st = .fresh := by
  cases st with
  | fresh => rfl
  | waiting => exact absurd h.1 hp
  | ended x => exact absurd h.1 hp

theorem inFlight_eq_nil (h : Tracks phase done outcomes inFlight st) (hst : ∀ o, st ≠ .ended o) :
    inFlight = [] := by
  cases st with
  | fresh => exact h.2.2.2
  | waiting => exact h.2.2.2
  | ended x => exact absurd rfl (hst x)

theorem perm {inFlight' : List β} (h : Tracks phase done outcomes inFlight st)
    (hp : inFlight.Perm inFlight') : Tracks phase done outcomes inFlight' st := by
  have he : inFlight' = inFlight := by
    cases st with
    | fresh => exact (h.2.2.2 ▸ hp).nil_eq.symm.trans h.2.2.2.symm
    | waiting => exact (h.2.2.2 ▸ hp).nil_eq.symm.trans h.2.2.2.symm
    | ended x =>
      rcases h.2 with ⟨-, -, hi⟩ | ⟨-, -, hi⟩
      · exact (hi ▸ hp).nil_eq.symm.trans hi.symm
      · rw [hi]
        exact (List.singleton_perm.mp (hi ▸ hp)).symm
  rwa [he]

/-- Running the completion moves the outcome from the batch to the receiver. -/
theorem complete {o : β} {rest : List β} (h : Tracks phase done outcomes inFlight st)
    (hp : inFlight.Perm (o :: rest)) :
    done = false ∧ Tracks phase true (outcomes ++ [o]) rest st := by
  have hne : inFlight ≠ [] := by
    rintro rfl
    simpa using hp.length_eq
  cases st with
  | fresh => exact absurd h.2.2.2 hne
  | waiting => exact absurd h.2.2.2 hne
  | ended x =>
    rcases h.2 with ⟨-, -, hi⟩ | ⟨hd, ho, hi⟩
    · exact absurd hi hne
    · rw [hi, List.singleton_perm, List.cons.injEq] at hp
      exact ⟨hd, h.1, .inl ⟨rfl, by simp [ho, hp.1], hp.2.symm⟩⟩

end Tracks

/-! ## The refinement relation -/

/-- The flag is up once the callback began, and not before it was registered. -/
def FlagAgrees (phase : Phase) (flag : Bool) (callback : Callback) : Prop :=
  (flag = true ↔ callback = .flagged ∨ callback = .finished) ∧
    (phase = .idle ∨ phase = .checked → callback = .absent)

theorem FlagAgrees.start {phase : Phase} {flag : Bool} {callback : Callback}
    (h : FlagAgrees phase flag callback) : FlagAgrees .started flag callback :=
  ⟨h.1, by simp⟩

theorem FlagAgrees.not_finished {phase : Phase} {flag : Bool} {callback : Callback}
    (h : FlagAgrees phase flag callback) (hf : flag = false) : callback ≠ .finished := by
  rintro rfl
  simpa [hf] using h.1

theorem FlagAgrees.reset {phase : Phase} {flag : Bool} {callback : Callback}
    (h : FlagAgrees phase flag callback) :
    FlagAgrees phase flag (State.resetCallback callback) := by
  cases callback <;> simp_all [FlagAgrees, State.resetCallback]

structure SendAgrees (v : α) (record : SendRecord α) (inFlight : List SendOutcome)
    (st : Status SendOutcome) : Prop where
  value : v = record.value
  tracks : Tracks record.phase record.done record.outcomes inFlight st
  flags : FlagAgrees record.phase record.stopRequestedFlag record.stopCallback
  uncancelled : st = .waiting → record.stopCallback ≠ .finished

/-- A receive that has not ended has no value prepared. -/
structure RecvAgrees (record : RecvRecord α) (inFlight : List RecvSignal)
    (st : Status (RecvOutcome α)) : Prop where
  unprepared : (∀ o, st ≠ .ended o) → record.value = none
  tracks : Tracks record.phase record.done record.outcomes
    (inFlight.map (State.recvOutcome record)) st
  flags : FlagAgrees record.phase record.stopRequestedFlag record.stopCallback
  uncancelled : st = .waiting → record.stopCallback ≠ .finished

structure Refines (s : State α) (a : Spec α) : Prop where
  capacity : a.capacity = s.capacity
  closed : a.closed = s.closed
  stopped : a.stopped = s.stopped
  buffer : a.buffer = s.buffer
  senders : a.senders = s.pendingSends.head
  receivers : a.receivers = s.pendingRecvs.head
  linkedSends : s.pendingSends.Linked
  linkedRecvs : s.pendingRecvs.Linked
  sent : ∀ i, SendAgrees (a.value i) (s.sends i) (sendsOf i s.batches.flatten) (a.sent i)
  received : ∀ r, RecvAgrees (s.recvs r) (recvsOf r s.batches.flatten) (a.received r)
  accepted : a.accepted = s.accepted
  handed : a.handed = s.handed
  discarded : a.discarded = s.discarded
  failed : a.failed = s.failedPromotions

theorem refines_initial {s : State α} (h : Initial s) :
    ∃ a : Spec α, Refines s a ∧ a.Inv := by
  obtain ⟨capacity, values, rfl⟩ := h
  refine ⟨{ capacity, value := values }, ?_, Spec.inv_initial _ _⟩
  have hsent (i : RecordId) : SendAgrees (values i) { value := values i } [] .fresh :=
    ⟨rfl, by simp [Tracks], by simp [FlagAgrees], by simp⟩
  have hreceived : RecvAgrees ({} : RecvRecord α) [] .fresh :=
    ⟨by simp, by simp [Tracks], by simp [FlagAgrees], by simp⟩
  constructor <;> simp [RecordQueue.linked_nil, hsent, hreceived]

/-! ## How a step changes what is tracked -/

section Tracking

variable {v : α} {send : SendRecord α} {recv : RecvRecord α}

/-- The outcome of a send is decided and its completion handed to a batch. -/
theorem SendAgrees.settle {inFlight : List SendOutcome} {st : Status SendOutcome}
    (h : SendAgrees v send inFlight st) (hst : ∀ o, st ≠ .ended o) (send' : SendRecord α)
    (hvalue : send'.value = send.value)
    (hrec : send'.phase = .started ∧ send'.done = send.done ∧ send'.outcomes = send.outcomes)
    (hflags : FlagAgrees .started send'.stopRequestedFlag send'.stopCallback) (o : SendOutcome) :
    SendAgrees v send' (inFlight ++ [o]) (.ended o) := by
  obtain ⟨hp, hd, ho⟩ := hrec
  refine ⟨h.value.trans hvalue.symm, ?_, hp ▸ hflags, by simp⟩
  rw [hp, hd, ho]
  exact h.tracks.settle hst o

theorem RecvAgrees.settle {inFlight : List RecvSignal} {st : Status (RecvOutcome α)}
    (h : RecvAgrees recv inFlight st) (hst : ∀ o, st ≠ .ended o) (recv' : RecvRecord α)
    (hrec : recv'.phase = .started ∧ recv'.done = recv.done ∧ recv'.outcomes = recv.outcomes)
    (hflags : FlagAgrees .started recv'.stopRequestedFlag recv'.stopCallback) (o : RecvSignal) :
    RecvAgrees recv' (inFlight ++ [o]) (.ended (State.recvOutcome recv' o)) := by
  obtain ⟨hp, hd, hout⟩ := hrec
  refine ⟨fun hne => absurd rfl (hne _), ?_, hp ▸ hflags, by simp⟩
  -- nothing of this receive was in flight, so no older completion reads the new value
  have hnil : inFlight = [] := List.map_eq_nil_iff.mp (h.tracks.inFlight_eq_nil hst)
  have hs := h.tracks.settle hst (State.recvOutcome recv' o)
  simpa [hp, hd, hout, hnil] using hs

variable {value : RecordId → α} {sends sends' : RecordId → SendRecord α}
  {recvs recvs' : RecordId → RecvRecord α}
  {batches : List (List Completion)} {b : List Completion}
  {sent : RecordId → Status SendOutcome} {received : RecordId → Status (RecvOutcome α)}

theorem sent_keep
    (h : ∀ j, SendAgrees (value j) (sends j) (sendsOf j batches.flatten) (sent j))
    (hb : ∀ j, sendsOf j b = []) :
    ∀ j, SendAgrees (value j) (sends j) (sendsOf j (batches ++ [b]).flatten) (sent j) := by
  intro j
  simpa [hb j] using h j

theorem received_keep (h : ∀ j, RecvAgrees (recvs j) (recvsOf j batches.flatten) (received j))
    (hb : ∀ j, recvsOf j b = []) :
    ∀ j, RecvAgrees (recvs j) (recvsOf j (batches ++ [b]).flatten) (received j) := by
  intro j
  simpa [hb j] using h j

theorem sent_update {i : RecordId} {st : Status SendOutcome}
    (h : ∀ j, SendAgrees (value j) (sends j) (sendsOf j batches.flatten) (sent j))
    (hne : ∀ j, j ≠ i → sends' j = sends j ∧ sendsOf j b = [])
    (hi : SendAgrees (value i) (sends' i) (sendsOf i batches.flatten ++ sendsOf i b) st) :
    ∀ j, SendAgrees (value j) (sends' j) (sendsOf j (batches ++ [b]).flatten)
      (Function.update sent i st j) := by
  intro j
  by_cases hj : j = i
  · subst hj
    simpa using hi
  · obtain ⟨hs, hb⟩ := hne j hj
    simpa [hj, hs, hb] using h j

theorem received_update {r : RecordId} {st : Status (RecvOutcome α)}
    (h : ∀ j, RecvAgrees (recvs j) (recvsOf j batches.flatten) (received j))
    (hne : ∀ j, j ≠ r → recvs' j = recvs j ∧ recvsOf j b = [])
    (hr : RecvAgrees (recvs' r) (recvsOf r batches.flatten ++ recvsOf r b) st) :
    ∀ j, RecvAgrees (recvs' j) (recvsOf j (batches ++ [b]).flatten)
      (Function.update received r st j) := by
  intro j
  by_cases hj : j = r
  · subst hj
    simpa using hr
  · obtain ⟨hs, hb⟩ := hne j hj
    simpa [hj, hs, hb] using h j

end Tracking

/-- The channel took a step: the abstract channel stays or takes one too. -/
def Simulated (a : Spec α) (t : State α) : Prop :=
  Refines t a ∨ ∃ b, Spec.Step a b ∧ Refines t b

section Steps

variable {s : State α} {a : Spec α}

theorem Refines.shut (h : Refines s a) : a.shut = (s.stopped || s.closed) := by
  rw [Spec.shut, h.stopped, h.closed]

theorem Refines.fresh_send (h : Refines s a) {i : RecordId}
    (hi : (s.sends i).phase ≠ .started) : a.sent i = .fresh :=
  (h.sent i).tracks.fresh_of_phase hi

theorem Refines.fresh_recv (h : Refines s a) {r : RecordId}
    (hr : (s.recvs r).phase ≠ .started) : a.received r = .fresh :=
  (h.received r).tracks.fresh_of_phase hr

theorem Refines.settled_failed (h : Refines s a) (ha : a.Inv) :
    a.failed = if s.pendingSends.empty then 0 else s.failedPromotions := by
  by_cases he : s.pendingSends.head = []
  · have hz := ha.discipline.settled (by rw [h.senders, he])
    simp [RecordQueue.empty, he, hz]
  · simp [RecordQueue.empty, he, h.failed]

theorem simulated_refuseSend (h : Refines s a) {i : RecordId} {o : SendOutcome}
    {m : Option Holder} {f : ℕ} (hi : (s.sends i).phase ≠ .started) (ho : ¬ o.Delivered)
    (hf : a.failed = f) :
    Simulated a { s.setSend i fun record => { record with phase := .started } with
      mtx := m, batches := s.batches ++ [[.send i o]], failedPromotions := f } := by
  have hfresh := h.fresh_send hi
  refine .inr ⟨_, .refuseSend a i o hfresh ho,
    { h with sent := ?_, received := ?_, failed := hf }⟩
  · refine sent_update h.sent (fun j hj => by simp [hj, Ne.symm hj]) ?_
    simpa using (h.sent i).settle (by simp [hfresh])
      { s.sends i with phase := .started } rfl ⟨rfl, rfl, rfl⟩ (h.sent i).flags.start o
  · exact received_keep h.received (by simp)

theorem simulated_refuseRecv (h : Refines s a) {r : RecordId} {sig : RecvSignal}
    {m : Option Holder} {f : ℕ} (hr : (s.recvs r).phase ≠ .started)
    (hsig : sig = .stopped ∨ sig = .returned) (hf : a.failed = f) :
    Simulated a { s.setRecv r fun record => { record with phase := .started } with
      mtx := m, batches := s.batches ++ [[.recv r sig]], failedPromotions := f } := by
  have hfresh := h.fresh_recv hr
  have hnone : (s.recvs r).value = none := (h.received r).unprepared (by simp [hfresh])
  let record : RecvRecord α := { s.recvs r with phase := .started }
  have hgot : ∀ v, ¬ (State.recvOutcome record sig).Got v := by
    intro v
    rcases hsig with rfl | rfl <;> simp [State.recvOutcome, RecvOutcome.Got, record, hnone]
  refine .inr ⟨_, .refuseRecv a r (State.recvOutcome record sig) hfresh hgot,
    { h with sent := ?_, received := ?_, failed := hf }⟩
  · exact sent_keep h.sent (by simp)
  · refine received_update h.received (fun j hj => by simp [hj, Ne.symm hj]) ?_
    simpa using (h.received r).settle (by simp [hfresh]) record
      ⟨rfl, rfl, rfl⟩ (h.received r).flags.start sig

/-! ## Sends -/

/-- The value goes straight to the first waiting receive. -/
theorem simulated_sendDirect (h : Refines s a) (ha : a.Inv) {i r : RecordId}
    {rest : List RecordId} {o : SendOutcome} (hi : (s.sends i).phase ≠ .started)
    (hshut : (s.stopped || s.closed) = false) (hr : s.pendingRecvs.head = r :: rest)
    (ho : o.Delivered) :
    Simulated a ((({ s.setSend i fun record => { record with phase := .started } with
      pendingRecvs := s.pendingRecvs.popFront.2 }.accept i).handOver i (s.sends i).value r).release
        [.recv r .value, .send i o]) := by
  have hfresh := h.fresh_send hi
  have hrec : a.receivers = r :: rest := h.receivers.trans hr
  have hwait : a.received r = .waiting := (ha.lines.receivers_waiting r).mp (by simp [hrec])
  have hstarted : (s.recvs r).phase = .started := by
    have := (h.received r).tracks
    rw [hwait] at this
    exact this.1
  have hv : a.value i = (s.sends i).value := (h.sent i).value
  refine .inr ⟨_, .sendDirect a i r rest o (h.shut.trans hshut) hfresh hrec ho,
    { capacity := by simp [h.capacity], closed := by simp [h.closed], stopped := by simp [h.stopped]
      buffer := by simp [h.buffer], senders := by simp [h.senders]
      linkedSends := by simp [h.linkedSends], discarded := by simp [h.discarded]
      receivers := ?_, linkedRecvs := by simpa using h.linkedRecvs.popFront, sent := ?_, received := ?_
      accepted := ?_, handed := ?_, failed := h.settled_failed ha }⟩
  · simp [RecordQueue.popFront, hr]
  · refine sent_update h.sent (fun j hj => ?_) ?_
    · simp [hj, Ne.symm hj]
    · simpa using (h.sent i).settle (by simp [hfresh])
        { s.sends i with phase := .started } rfl ⟨rfl, rfl, rfl⟩ (h.sent i).flags.start o
  · refine received_update h.received (fun j hj => ?_) ?_
    · simp [hj, Ne.symm hj]
    · simpa [State.recvOutcome, hv] using (h.received r).settle (by simp [hwait])
        { s.recvs r with value := some (s.sends i).value } ⟨hstarted, rfl, rfl⟩
        (hstarted ▸ (h.received r).flags) .value
  · simp [h.accepted]
  · simp [h.handed, hv]

theorem simulated_sendBuffer (h : Refines s a) (ha : a.Inv) {i : RecordId} {o : SendOutcome}
    (hi : (s.sends i).phase ≠ .started) (hshut : (s.stopped || s.closed) = false)
    (hr : s.pendingRecvs.head = []) (hs : s.pendingSends.head = [])
    (hroom : s.buffer.length < s.capacity) (ho : o.Delivered) :
    Simulated a ({ (s.setSend i fun record => { record with phase := .started }).accept i with
      buffer := s.buffer ++ [(i, (s.sends i).value)] }.release [.send i o]) := by
  have hfresh := h.fresh_send hi
  have hv : a.value i = (s.sends i).value := (h.sent i).value
  refine .inr ⟨_, .sendBuffer a i o (h.shut.trans hshut) hfresh (h.receivers.trans hr)
    (h.senders.trans hs) (by rw [h.buffer, h.capacity]; exact hroom) ho,
    { h with buffer := ?_, sent := ?_, received := ?_, accepted := ?_,
             failed := h.settled_failed ha }⟩
  · simp [h.buffer, hv]
  · refine sent_update h.sent (fun j hj => by simp [hj, Ne.symm hj]) ?_
    simpa using (h.sent i).settle (by simp [hfresh])
      { s.sends i with phase := .started } rfl ⟨rfl, rfl, rfl⟩ (h.sent i).flags.start o
  · exact received_keep h.received (by simp)
  · simp [h.accepted]

/-- The record is linked with the mutex still held. -/
theorem simulated_sendWait (h : Refines s a) (ha : a.Inv) {i : RecordId}
    (hi : (s.sends i).phase ≠ .started) (hshut : (s.stopped || s.closed) = false)
    (hflag : (s.sends i).stopRequestedFlag = false) (hr : s.pendingRecvs.head = [])
    (hfull : s.pendingSends.head = [] → s.capacity ≤ s.buffer.length) :
    Simulated a { (s.setSend i fun record => { record with phase := .started }).accept i with
      pendingSends := s.pendingSends.pushBack i, mtx := some (.send i) } := by
  have hfresh := h.fresh_send hi
  have hnot : i ∉ s.pendingSends.head := by
    rw [← h.senders, ha.lines.senders_waiting, hfresh]
    simp
  refine .inr ⟨_, .sendWait a i (h.shut.trans hshut) hfresh (h.receivers.trans hr) ?_,
    { h with senders := ?_, linkedSends := h.linkedSends.pushBack hnot, sent := ?_,
             accepted := ?_ }⟩
  · rw [h.senders, h.buffer, h.capacity]
    exact hfull
  · simp [RecordQueue.pushBack_head h.linkedSends, h.senders]
  · intro j
    by_cases hj : j = i
    · subst hj
      have hag := h.sent j
      rw [hfresh] at hag
      simpa using (⟨hag.value, hag.tracks.wait, hag.flags.start,
        fun _ => hag.flags.not_finished hflag⟩ : SendAgrees (a.value j)
          { s.sends j with phase := .started } (sendsOf j s.batches.flatten) .waiting)
    · simpa [hj] using h.sent j
  · simp [h.accepted]

theorem not_delivered_stopped : ¬ SendOutcome.Delivered .stopped := by
  simp [SendOutcome.Delivered]

theorem simulated_startSend (h : Refines s a) (ha : a.Inv) {i : RecordId} (allocated : Bool)
    (hi : (s.sends i).phase ≠ .started) : Simulated a (s.startSend i allocated) := by
  have hf := h.settled_failed ha
  by_cases hshut : (s.stopped || s.closed) = true
  · have he : s.startSend i allocated = (s.setSend i fun record =>
        { record with phase := .started }).release [.send i .stopped] := if_pos hshut
    rw [he]
    exact simulated_refuseSend h hi not_delivered_stopped hf
  rw [Bool.not_eq_true] at hshut
  cases hflag : (s.sends i).stopRequestedFlag with
  | true =>
    simpa [State.startSend, hshut, hflag] using simulated_refuseSend h hi not_delivered_stopped hf
  | false =>
    cases hr : s.pendingRecvs.head with
    | cons r rest =>
      simpa [State.startSend, hshut, hflag, RecordQueue.popFront, hr] using
        simulated_sendDirect h ha hi hshut hr (.inl rfl : SendOutcome.Delivered .value)
    | nil =>
      by_cases hroom : s.pendingSends.head = [] ∧ s.buffer.length < s.capacity
      · cases allocated with
        | true =>
          simpa [State.startSend, hshut, hflag, RecordQueue.popFront, RecordQueue.empty, hr, hroom]
            using simulated_sendBuffer h ha hi hshut hr hroom.1 hroom.2
              (.inl rfl : SendOutcome.Delivered .value)
        | false =>
          simpa [State.startSend, hshut, hflag, RecordQueue.popFront, RecordQueue.empty, hr, hroom]
            using simulated_refuseSend h hi
              (by simp [SendOutcome.Delivered] : ¬ SendOutcome.Delivered .error) hf
      · simpa [State.startSend, hshut, hflag, RecordQueue.popFront, RecordQueue.empty, hr, hroom]
          using simulated_sendWait h ha hi hshut hflag hr (by simpa using hroom)

theorem simulated_trySend (h : Refines s a) (ha : a.Inv) {i : RecordId} (allocated : Bool)
    (hi : (s.sends i).phase ≠ .started) : Simulated a (s.trySend i allocated) := by
  have hf := h.settled_failed ha
  have hrefused : ¬ SendOutcome.Delivered (.returned false) := by simp [SendOutcome.Delivered]
  by_cases hshut : (s.stopped || s.closed) = true
  · have he : s.trySend i allocated = (s.setSend i fun record =>
        { record with phase := .started }).release [.send i (.returned false)] := if_pos hshut
    rw [he]
    exact simulated_refuseSend h hi hrefused hf
  rw [Bool.not_eq_true] at hshut
  cases hr : s.pendingRecvs.head with
  | cons r rest =>
    simpa [State.trySend, hshut, RecordQueue.popFront, hr] using
      simulated_sendDirect h ha hi hshut hr (.inr rfl : SendOutcome.Delivered (.returned true))
  | nil =>
    by_cases hroom : s.pendingSends.head = [] ∧ s.buffer.length < s.capacity
    · cases allocated with
      | true =>
        simpa [State.trySend, hshut, RecordQueue.popFront, RecordQueue.empty, hr, hroom] using
          simulated_sendBuffer h ha hi hshut hr hroom.1 hroom.2
            (.inr rfl : SendOutcome.Delivered (.returned true))
      | false =>
        simpa [State.trySend, hshut, RecordQueue.popFront, RecordQueue.empty, hr, hroom] using
          simulated_refuseSend h hi
            (by simp [SendOutcome.Delivered] : ¬ SendOutcome.Delivered .threw) hf
    · simpa [State.trySend, hshut, RecordQueue.popFront, RecordQueue.empty, hr, hroom] using
        simulated_refuseSend h hi hrefused hf

/-! ## Receives -/

/-- The receive half of a hand-over: the record gets the value and a completion that
reads it. -/
theorem received_handed (h : Refines s a) {r : RecordId} {sig : RecvSignal} {v : α}
    {b : List Completion} (hfresh : a.received r = .fresh)
    (hb : ∀ j, recvsOf j b = if r = j then [sig] else []) :
    ∀ j, RecvAgrees (Function.update s.recvs r
        { s.recvs r with phase := .started, value := some v } j)
      (recvsOf j (s.batches ++ [b]).flatten)
      (Function.update a.received r
        (.ended (State.recvOutcome { s.recvs r with phase := .started, value := some v } sig)) j) := by
  refine received_update h.received (fun j hj => by simp [hj, hb, Ne.symm hj]) ?_
  simpa [hb] using (h.received r).settle (by simp [hfresh])
    { s.recvs r with phase := .started, value := some v } ⟨rfl, rfl, rfl⟩
    (h.received r).flags.start sig

/-- The send half when a waiting sender is taken off the line. -/
theorem sent_popped (h : Refines s a) (ha : a.Inv) {k : RecordId} {line : List RecordId}
    {o : SendOutcome} {b : List Completion} (hk : s.pendingSends.head = k :: line)
    (hb : ∀ j, sendsOf j b = if k = j then [o] else []) :
    ∀ j, SendAgrees (a.value j) (s.sends j) (sendsOf j (s.batches ++ [b]).flatten)
      (Function.update a.sent k (.ended o) j) := by
  have hwait : a.sent k = .waiting := (ha.lines.senders_waiting k).mp (by simp [h.senders, hk])
  have hstarted : (s.sends k).phase = .started := by
    have ht := (h.sent k).tracks
    rw [hwait] at ht
    exact ht.1
  refine sent_update h.sent (fun j hj => by simp [hb, Ne.symm hj]) ?_
  simpa [hb] using (h.sent k).settle (by simp [hwait]) (s.sends k) rfl ⟨hstarted, rfl, rfl⟩
    (hstarted ▸ (h.sent k).flags) o

/-- Both receive operations: `sig` is the completion that reads the value, `b` the batch
in the order the operation runs it. -/
theorem simulated_receive (h : Refines s a) (ha : a.Inv) {r : RecordId} {allocated : Bool}
    {sig : RecvSignal} {t : State α} {actions b : List Completion}
    (hr : (s.recvs r).phase ≠ .started) (hsig : sig = .value ∨ sig = .returned)
    (ht : (s.setRecv r fun record => { record with phase := .started }).receiveLocked r allocated =
      some (t, actions))
    (hbs : ∀ j, sendsOf j b = sendsOf j actions)
    (hbr : ∀ j, recvsOf j b = if r = j then [sig] else []) :
    Simulated a (t.release b) := by
  have hfresh := h.fresh_recv hr
  have hgot (v : α) : (State.recvOutcome
      { s.recvs r with phase := .started, value := some v } sig).Got v := by
    rcases hsig with rfl | rfl <;> simp [State.recvOutcome, RecvOutcome.Got]
  unfold State.receiveLocked at ht
  cases hbuf : s.buffer with
  | cons p rest =>
    obtain ⟨j, v⟩ := p
    have hb : a.buffer = (j, v) :: rest := h.buffer.trans hbuf
    cases hsend : s.pendingSends.head with
    | nil =>
      simp [hbuf, State.promoteOneSendLocked, RecordQueue.empty, hsend] at ht
      obtain ⟨rfl, rfl⟩ := ht
      refine .inr ⟨_, .recvBuffer a r j v rest _ hfresh hb (h.senders.trans hsend) (hgot v),
        { h with buffer := rfl, sent := ?_, received := ?_, handed := ?_,
                 failed := h.settled_failed ha }⟩
      · exact sent_keep h.sent (by simpa using hbs)
      · simpa using received_handed h hfresh hbr
      · simp [h.handed]
    | cons k line =>
      -- Taking an element off the buffer makes room for the first waiting sender.
      have hroom : rest.length < s.capacity := by
        have hbound := ha.discipline.bound
        rw [h.capacity, hb] at hbound
        simpa [Nat.succ_le_iff] using hbound
      cases allocated with
      | true =>
        simp [hbuf, State.promoteOneSendLocked, RecordQueue.empty, RecordQueue.popFront, hsend,
          hroom] at ht
        obtain ⟨rfl, rfl⟩ := ht
        refine .inr ⟨_, .recvPromote a r j k v rest line _ hfresh hb (h.senders.trans hsend)
          (hgot v), { h with buffer := ?_, senders := ?_, linkedSends := ?_, sent := ?_,
                             received := ?_, handed := ?_, failed := ?_ }⟩
        · simp [(h.sent k).value]
        · simp
        · simpa [RecordQueue.popFront, hsend] using h.linkedSends.popFront
        · exact sent_popped h ha hsend (by simpa using hbs)
        · simpa using received_handed h hfresh hbr
        · simp [h.handed]
        · simp [Spec.settleFailed, RecordQueue.empty, h.failed]
      | false =>
        simp [hbuf, State.promoteOneSendLocked, RecordQueue.empty, RecordQueue.popFront, hsend,
          hroom] at ht
        obtain ⟨rfl, rfl⟩ := ht
        refine .inr ⟨_, .recvPromoteFail a r j k v rest line _ hfresh hb (h.senders.trans hsend)
          (hgot v), { h with buffer := rfl, senders := ?_, linkedSends := ?_, sent := ?_,
                             received := ?_, handed := ?_, failed := ?_ }⟩
        · simp
        · simpa [RecordQueue.popFront, hsend] using h.linkedSends.popFront
        · exact sent_popped h ha hsend (by simpa using hbs)
        · simpa using received_handed h hfresh hbr
        · simp [h.handed]
        · simp [Spec.settleFailed, RecordQueue.empty, h.failed]
  -- An unbuffered channel: the value goes over from the first waiting sender.
  | nil =>
    cases hsend : s.pendingSends.head with
    | nil => simp [hbuf, RecordQueue.popFront, hsend] at ht
    | cons i line =>
      simp [hbuf, RecordQueue.popFront, hsend] at ht
      obtain ⟨rfl, rfl⟩ := ht
      have hv : a.value i = (s.sends i).value := (h.sent i).value
      have hgot' := hgot (s.sends i).value
      rw [← hv] at hgot'
      refine .inr ⟨_, .recvDirect a r i line _ hfresh (h.buffer.trans hbuf)
        (h.senders.trans hsend) hgot',
        { h with buffer := h.buffer.trans hbuf, senders := rfl, linkedSends := ?_, sent := ?_,
                 received := ?_, handed := ?_, failed := ?_ }⟩
      · simpa [RecordQueue.popFront, hsend] using h.linkedSends.popFront
      · exact sent_popped h ha hsend (by simpa using hbs)
      · simpa [hv] using received_handed h hfresh hbr
      · simp [h.handed, hv]
      · simp [Spec.settleFailed, RecordQueue.empty, h.failed]

theorem promote_recvsOf (allocated : Bool) (j : RecordId) :
    recvsOf j (s.promoteOneSendLocked allocated).2 = [] := by
  unfold State.promoteOneSendLocked
  repeat' split
  all_goals rfl

/-- The completions collected before the receive's own one are all of senders. -/
theorem receiveLocked_recvsOf {r j : RecordId} {allocated : Bool} {p : State α × List Completion}
    (h : s.receiveLocked r allocated = some p) : recvsOf j p.2 = [] := by
  unfold State.receiveLocked at h
  split at h
  · cases h
    exact promote_recvsOf _ _
  · split at h <;> cases h
    rfl

theorem receiveLocked_eq_none {r : RecordId} {allocated : Bool}
    (hr : (s.setRecv r fun record => { record with phase := .started }).receiveLocked r allocated =
      none) : s.buffer = [] ∧ s.pendingSends.head = [] := by
  cases hbuf : s.buffer with
  | cons p rest => simp [State.receiveLocked, hbuf] at hr
  | nil =>
    cases hsend : s.pendingSends.head with
    | nil => exact ⟨rfl, rfl⟩
    | cons i line => simp [State.receiveLocked, hbuf, RecordQueue.popFront, hsend] at hr

theorem simulated_recvWait (h : Refines s a) (ha : a.Inv) {r : RecordId}
    (hr : (s.recvs r).phase ≠ .started) (hshut : (s.stopped || s.closed) = false)
    (hflag : (s.recvs r).stopRequestedFlag = false) (hb : s.buffer = [])
    (hs : s.pendingSends.head = []) :
    Simulated a { s.setRecv r fun record => { record with phase := .started } with
      pendingRecvs := s.pendingRecvs.pushBack r, mtx := some (.recv r) } := by
  have hfresh := h.fresh_recv hr
  have hnot : r ∉ s.pendingRecvs.head := by
    rw [← h.receivers, ha.lines.receivers_waiting, hfresh]
    simp
  refine .inr ⟨_, .recvWait a r (h.shut.trans hshut) hfresh (h.buffer.trans hb)
    (h.senders.trans hs), { h with receivers := ?_, linkedRecvs := h.linkedRecvs.pushBack hnot,
                                   received := ?_ }⟩
  · simp [RecordQueue.pushBack_head h.linkedRecvs, h.receivers]
  · intro j
    by_cases hj : j = r
    · subst hj
      have hag := h.received j
      rw [hfresh] at hag
      simpa using (⟨fun _ => hag.unprepared (by simp), hag.tracks.wait, hag.flags.start,
        fun _ => hag.flags.not_finished hflag⟩ : RecvAgrees
          { s.recvs j with phase := .started } (recvsOf j s.batches.flatten) .waiting)
    · simpa [hj] using h.received j

theorem simulated_startRecv (h : Refines s a) (ha : a.Inv) {r : RecordId} (allocated : Bool)
    (hr : (s.recvs r).phase ≠ .started) : Simulated a (s.startRecv r allocated) := by
  have hf := h.settled_failed ha
  cases hrec : (s.setRecv r fun record =>
      { record with phase := .started }).receiveLocked r allocated with
  | some p =>
    have he : s.startRecv r allocated = p.1.release (.recv r .value :: p.2) := by
      simp only [State.startRecv, hrec]
    rw [he]
    refine simulated_receive h ha hr (.inl rfl) hrec (by simp) fun j => ?_
    simp [receiveLocked_recvsOf hrec]
  | none =>
    obtain ⟨hb, hs⟩ := receiveLocked_eq_none hrec
    have he : s.startRecv r allocated =
        if (s.stopped || s.closed) = true then (s.setRecv r fun record =>
          { record with phase := .started }).release [.recv r .stopped]
        else if (s.recvs r).stopRequestedFlag then (s.setRecv r fun record =>
          { record with phase := .started }).release [.recv r .stopped]
        else { s.setRecv r fun record => { record with phase := .started } with
          pendingRecvs := s.pendingRecvs.pushBack r, mtx := some (.recv r) } := by
      simp only [State.startRecv, hrec]
      simp
    rw [he]
    split_ifs with hshut hflag
    · exact simulated_refuseRecv h hr (.inl rfl) hf
    · exact simulated_refuseRecv h hr (.inl rfl) hf
    · exact simulated_recvWait h ha hr (by simpa using hshut) (by simpa using hflag) hb hs

theorem simulated_tryRecv (h : Refines s a) (ha : a.Inv) {r : RecordId} (allocated : Bool)
    (hr : (s.recvs r).phase ≠ .started) : Simulated a (s.tryRecv r allocated) := by
  cases hrec : (s.setRecv r fun record =>
      { record with phase := .started }).receiveLocked r allocated with
  | some p =>
    have he : s.tryRecv r allocated = p.1.release (p.2 ++ [Completion.recv r .returned]) := by
      simp only [State.tryRecv, hrec]
    rw [he]
    refine simulated_receive h ha hr (.inr rfl) hrec (by simp) fun j => ?_
    simp [receiveLocked_recvsOf hrec]
  | none =>
    have he : s.tryRecv r allocated = (s.setRecv r fun record =>
        { record with phase := .started }).release [.recv r .returned] := by
      simp only [State.tryRecv, hrec]
    rw [he]
    exact simulated_refuseRecv h hr (.inr rfl) (h.settled_failed ha)

/-! ## Cancellation and shutdown -/

/-- A send is unlinked and stopped; its callback may have just ended. -/
theorem simulated_dropSend (h : Refines s a) (ha : a.Inv) {i : RecordId} {c : Callback}
    (hc : FlagAgrees .started (s.sends i).stopRequestedFlag c) (hi : i ∈ s.pendingSends.head) :
    Simulated a ({ s.setSend i fun record => { record with stopCallback := c } with
      pendingSends := (s.pendingSends.remove i).2 }.release [.send i .stopped]) := by
  obtain ⟨-, hhead, hlinked⟩ := RecordQueue.remove_of_mem h.linkedSends hi
  have hmem : i ∈ a.senders := by rw [h.senders]; exact hi
  have hwait : a.sent i = .waiting := (ha.lines.senders_waiting i).mp hmem
  have hstarted : (s.sends i).phase = .started := by
    have ht := (h.sent i).tracks
    rw [hwait] at ht
    exact ht.1
  refine .inr ⟨_, .dropSend a i hmem,
    { h with senders := ?_, linkedSends := hlinked, sent := ?_, received := ?_, failed := ?_ }⟩
  · simp [hhead, h.senders]
  · refine sent_update h.sent (fun j hj => by simp [hj, Ne.symm hj]) ?_
    simpa using (h.sent i).settle (by simp [hwait]) { s.sends i with stopCallback := c } rfl
      ⟨hstarted, rfl, rfl⟩ hc .stopped
  · exact received_keep h.received (by simp)
  · simp [Spec.settleFailed, RecordQueue.empty, hhead, h.senders, h.failed]

theorem simulated_dropRecv (h : Refines s a) (ha : a.Inv) {r : RecordId} {c : Callback}
    (hc : FlagAgrees .started (s.recvs r).stopRequestedFlag c) (hr : r ∈ s.pendingRecvs.head) :
    Simulated a ({ s.setRecv r fun record => { record with stopCallback := c } with
      pendingRecvs := (s.pendingRecvs.remove r).2 }.release [.recv r .stopped]) := by
  obtain ⟨-, hhead, hlinked⟩ := RecordQueue.remove_of_mem h.linkedRecvs hr
  have hmem : r ∈ a.receivers := by rw [h.receivers]; exact hr
  have hwait : a.received r = .waiting := (ha.lines.receivers_waiting r).mp hmem
  have hstarted : (s.recvs r).phase = .started := by
    have ht := (h.received r).tracks
    rw [hwait] at ht
    exact ht.1
  refine .inr ⟨_, .dropRecv a r hmem,
    { h with receivers := ?_, linkedRecvs := hlinked, sent := ?_, received := ?_,
             failed := h.settled_failed ha }⟩
  · simp [hhead, h.receivers]
  · exact sent_keep h.sent (by simp)
  · refine received_update h.received (fun j hj => by simp [hj, Ne.symm hj]) ?_
    simpa [State.recvOutcome] using (h.received r).settle (by simp [hwait])
      { s.recvs r with stopCallback := c } ⟨hstarted, rfl, rfl⟩ hc .stopped

theorem simulated_release_nil (h : Refines s a) (ha : a.Inv) : Simulated a (s.release []) :=
  .inl { h with sent := sent_keep h.sent (by simp), received := received_keep h.received (by simp),
                failed := h.settled_failed ha }

theorem Refines.started_send (h : Refines s a) (ha : a.Inv) {i : RecordId}
    (hi : i ∈ s.pendingSends.head) : (s.sends i).phase = .started := by
  have ht := (h.sent i).tracks
  rw [(ha.lines.senders_waiting i).mp (by rw [h.senders]; exact hi)] at ht
  exact ht.1

theorem Refines.started_recv (h : Refines s a) (ha : a.Inv) {r : RecordId}
    (hr : r ∈ s.pendingRecvs.head) : (s.recvs r).phase = .started := by
  have ht := (h.received r).tracks
  rw [(ha.lines.receivers_waiting r).mp (by rw [h.receivers]; exact hr)] at ht
  exact ht.1

theorem simulated_recheckSend (h : Refines s a) (ha : a.Inv) (i : RecordId) :
    Simulated a (s.recheckSend i) := by
  unfold State.recheckSend
  split_ifs with hflag
  · by_cases hi : i ∈ s.pendingSends.head
    · have hs := h.started_send ha hi
      have hc := (h.sent i).flags
      rw [hs] at hc
      have hd := simulated_dropSend h ha hc hi
      have he : s.pendingSends.remove i = (some i, (s.pendingSends.remove i).2) :=
        Prod.ext (RecordQueue.remove_of_mem h.linkedSends hi).1 rfl
      rw [he]
      rwa [show (s.setSend i fun record => { record with stopCallback := (s.sends i).stopCallback }) = s
        by simp] at hd
    · rw [RecordQueue.remove_of_notMem hi]
      exact simulated_release_nil h ha
  · exact simulated_release_nil h ha

theorem simulated_recheckRecv (h : Refines s a) (ha : a.Inv) (r : RecordId) :
    Simulated a (s.recheckRecv r) := by
  unfold State.recheckRecv
  split_ifs with hflag
  · by_cases hr : r ∈ s.pendingRecvs.head
    · have hs := h.started_recv ha hr
      have hc := (h.received r).flags
      rw [hs] at hc
      have hd := simulated_dropRecv h ha hc hr
      have he : s.pendingRecvs.remove r = (some r, (s.pendingRecvs.remove r).2) :=
        Prod.ext (RecordQueue.remove_of_mem h.linkedRecvs hr).1 rfl
      rw [he]
      rwa [show (s.setRecv r fun record => { record with stopCallback := (s.recvs r).stopCallback }) = s
        by simp] at hd
    · rw [RecordQueue.remove_of_notMem hr]
      exact simulated_release_nil h ha
  · exact simulated_release_nil h ha

/-- Only the callback of a send that is not waiting changes. -/
theorem Refines.callbackSend (h : Refines s a) {i : RecordId} {flag : Bool} {c : Callback}
    (hc : FlagAgrees (s.sends i).phase flag c)
    (hw : a.sent i = .waiting → c ≠ .finished) :
    Refines (s.setSend i fun record =>
      { record with stopRequestedFlag := flag, stopCallback := c }) a := by
  refine { h with sent := fun j => ?_ }
  by_cases hj : j = i
  · subst hj
    simpa using (⟨(h.sent j).value, (h.sent j).tracks, hc, hw⟩ : SendAgrees (a.value j)
      { s.sends j with stopRequestedFlag := flag, stopCallback := c } _ _)
  · simpa [hj] using h.sent j

theorem Refines.callbackRecv (h : Refines s a) {r : RecordId} {flag : Bool} {c : Callback}
    (hc : FlagAgrees (s.recvs r).phase flag c)
    (hw : a.received r = .waiting → c ≠ .finished) :
    Refines (s.setRecv r fun record =>
      { record with stopRequestedFlag := flag, stopCallback := c }) a := by
  refine { h with received := fun j => ?_ }
  by_cases hj : j = r
  · subst hj
    simpa using (⟨(h.received j).unprepared, (h.received j).tracks, hc, hw⟩ : RecvAgrees
      { s.recvs j with stopRequestedFlag := flag, stopCallback := c } _ _)
  · simpa [hj] using h.received j

theorem FlagAgrees.finish {phase : Phase} {flag : Bool}
    (h : FlagAgrees phase flag .flagged) : FlagAgrees phase flag .finished :=
  ⟨by simpa using h.1, fun hp => by simpa using h.2 hp⟩

theorem simulated_cancelSend (h : Refines s a) (ha : a.Inv) {i : RecordId}
    (hi : (s.sends i).stopCallback = .flagged) : Simulated a (s.cancelSend i) := by
  have hflag := (h.sent i).flags
  rw [hi] at hflag
  unfold State.cancelSend
  by_cases hm : i ∈ s.pendingSends.head
  · have hs := h.started_send ha hm
    rw [hs] at hflag
    have hd := simulated_dropSend h ha hflag.finish hm
    have he : s.pendingSends.remove i = (some i, (s.pendingSends.remove i).2) :=
      Prod.ext (RecordQueue.remove_of_mem h.linkedSends hm).1 rfl
    simp only [State.setSend]
    rw [he]
    exact hd
  · have hnw : a.sent i = .waiting → Callback.finished ≠ .finished := by
      intro hw
      rw [← ha.lines.senders_waiting, h.senders] at hw
      exact absurd hw hm
    simp only [State.setSend, RecordQueue.remove_of_notMem hm]
    exact simulated_release_nil (h.callbackSend hflag.finish hnw) ha

theorem simulated_cancelRecv (h : Refines s a) (ha : a.Inv) {r : RecordId}
    (hr : (s.recvs r).stopCallback = .flagged) : Simulated a (s.cancelRecv r) := by
  have hflag := (h.received r).flags
  rw [hr] at hflag
  unfold State.cancelRecv
  by_cases hm : r ∈ s.pendingRecvs.head
  · have hs := h.started_recv ha hm
    rw [hs] at hflag
    have hd := simulated_dropRecv h ha hflag.finish hm
    have he : s.pendingRecvs.remove r = (some r, (s.pendingRecvs.remove r).2) :=
      Prod.ext (RecordQueue.remove_of_mem h.linkedRecvs hm).1 rfl
    simp only [State.setRecv]
    rw [he]
    exact hd
  · have hnw : a.received r = .waiting → Callback.finished ≠ .finished := by
      intro hw
      rw [← ha.lines.receivers_waiting, h.receivers] at hw
      exact absurd hw hm
    simp only [State.setRecv, RecordQueue.remove_of_notMem hm]
    exact simulated_release_nil (h.callbackRecv hflag.finish hnw) ha

/-- Every waiting send is stopped by the batch that took the whole line. -/
theorem sent_stopAll (h : Refines s a) (ha : a.Inv) {b : List Completion}
    (hb : ∀ j, sendsOf j b = if j ∈ s.pendingSends.head then [.stopped] else []) :
    ∀ j, SendAgrees (a.value j) (s.sends j) (sendsOf j (s.batches ++ [b]).flatten)
      (Spec.stopAll a.senders a.sent .stopped j) := by
  intro j
  by_cases hj : j ∈ s.pendingSends.head
  · have hwait : a.sent j = .waiting :=
      (ha.lines.senders_waiting j).mp (by rw [h.senders]; exact hj)
    have hs := h.started_send ha hj
    simpa [Spec.stopAll, h.senders, hj, hb j] using (h.sent j).settle (by simp [hwait])
      (s.sends j) rfl ⟨hs, rfl, rfl⟩ (hs ▸ (h.sent j).flags) .stopped
  · simpa [Spec.stopAll, h.senders, hj, hb j] using h.sent j

/-- A waiting receive has no value prepared, so the loop of `close` stops it as well. -/
theorem received_stopAll (h : Refines s a) (ha : a.Inv) {b : List Completion} {sig : RecvSignal}
    (hsig : sig = .stopped ∨ sig = .drain)
    (hb : ∀ j, recvsOf j b = if j ∈ s.pendingRecvs.head then [sig] else []) :
    ∀ j, RecvAgrees (s.recvs j) (recvsOf j (s.batches ++ [b]).flatten)
      (Spec.stopAll a.receivers a.received .stopped j) := by
  intro j
  by_cases hj : j ∈ s.pendingRecvs.head
  · have hwait : a.received j = .waiting :=
      (ha.lines.receivers_waiting j).mp (by rw [h.receivers]; exact hj)
    have hnone : (s.recvs j).value = none := (h.received j).unprepared (by simp [hwait])
    have hs := h.started_recv ha hj
    have hout : State.recvOutcome (s.recvs j) sig = .stopped := by
      rcases hsig with rfl | rfl <;> simp [State.recvOutcome, hnone]
    simpa [Spec.stopAll, h.receivers, hj, hb j, hout] using (h.received j).settle (by simp [hwait])
      (s.recvs j) ⟨hs, rfl, rfl⟩ (hs ▸ (h.received j).flags) sig
  · simpa [Spec.stopAll, h.receivers, hj, hb j] using h.received j

theorem simulated_close (h : Refines s a) (ha : a.Inv) : Simulated a s.close := by
  refine .inr ⟨_, .close a, { h with
    closed := rfl, senders := rfl, receivers := rfl, linkedSends := RecordQueue.linked_nil,
    linkedRecvs := RecordQueue.linked_nil, sent := ?_, received := ?_, failed := ?_ }⟩
  · exact sent_stopAll h ha fun j => by simp [sendsOf_map_send h.linkedSends.nodup]
  · exact received_stopAll h ha (.inr rfl) fun j => by
      simp [recvsOf_map_recv h.linkedRecvs.nodup]
  · simp [State.close, RecordQueue.empty]

theorem simulated_requestStop (h : Refines s a) (ha : a.Inv) : Simulated a s.requestStop := by
  refine .inr ⟨_, .requestStop a, { h with
    stopped := rfl, buffer := rfl, senders := rfl, receivers := rfl,
    linkedSends := RecordQueue.linked_nil, linkedRecvs := RecordQueue.linked_nil, sent := ?_,
    received := ?_, discarded := ?_, failed := ?_ }⟩
  · exact sent_stopAll h ha fun j => by simp [sendsOf_map_send h.linkedSends.nodup]
  · exact received_stopAll h ha (.inl rfl) fun j => by
      simp [recvsOf_map_recv h.linkedRecvs.nodup]
  · simp [State.requestStop, h.discarded, h.buffer]
  · simp [State.requestStop, RecordQueue.empty]

/-! ## Completions and the start of an operation -/

theorem refines_complete (h : Refines s a) {k : ℕ} {c : Completion} {rest : List Completion}
    (hk : s.batches[k]? = some (c :: rest)) :
    Refines { s.complete c with batches := s.batches.set k rest } a := by
  have hperm := flatten_set hk
  have hsends (j : RecordId) : (sendsOf j s.batches.flatten).Perm
      (sendsOf j [c] ++ sendsOf j (s.batches.set k rest).flatten) := by
    rw [← sendsOf_append]
    exact hperm.filterMap _
  have hrecvs (j : RecordId) : (recvsOf j s.batches.flatten).Perm
      (recvsOf j [c] ++ recvsOf j (s.batches.set k rest).flatten) := by
    rw [← recvsOf_append]
    exact hperm.filterMap _
  cases c with
  | send i o =>
    have hcomp := (h.sent i).tracks.complete (by simpa using hsends i)
    have hstate : s.complete (.send i o) = s.setSend i fun record =>
        { record with done := true, outcomes := record.outcomes ++ [o],
                      stopCallback := State.resetCallback record.stopCallback } := by
      simp [State.complete, State.completeSend, hcomp.1]
    rw [hstate]
    refine { h with sent := fun j => ?_, received := fun j => ?_ }
    · by_cases hj : j = i
      · subst hj
        simpa using (⟨(h.sent j).value, hcomp.2, (h.sent j).flags.reset, fun hw => by
          have := (h.sent j).uncancelled hw
          cases hc : (s.sends j).stopCallback <;> simp_all [State.resetCallback]⟩ :
          SendAgrees (a.value j) { s.sends j with
            done := true, outcomes := (s.sends j).outcomes ++ [o],
            stopCallback := State.resetCallback (s.sends j).stopCallback } _ _)
      · have hp := hsends j
        simp only [sendsOf_send, Ne.symm hj, if_false, sendsOf_nil, List.nil_append] at hp
        have hag := h.sent j
        refine ⟨by simpa [hj] using hag.value, ?_, by simpa [hj] using hag.flags,
          by simpa [hj] using hag.uncancelled⟩
        simpa [hj] using hag.tracks.perm hp
    · have hp := hrecvs j
      simp only [recvsOf_send, recvsOf_nil, List.nil_append] at hp
      have hag := h.received j
      exact ⟨hag.unprepared, hag.tracks.perm (hp.map _), hag.flags, hag.uncancelled⟩
  | recv r o =>
    have hcomp := (h.received r).tracks.complete (by simpa using (hrecvs r).map _)
    have hstate : s.complete (.recv r o) = s.setRecv r fun record =>
        { record with done := true, outcomes := record.outcomes ++ [State.recvOutcome record o],
                      stopCallback := State.resetCallback record.stopCallback } := by
      simp [State.complete, State.completeRecv, hcomp.1]
    rw [hstate]
    refine { h with sent := fun j => ?_, received := fun j => ?_ }
    · have hp := hsends j
      simp only [sendsOf_recv, sendsOf_nil, List.nil_append] at hp
      have hag := h.sent j
      exact ⟨hag.value, hag.tracks.perm hp, hag.flags, hag.uncancelled⟩
    · by_cases hj : j = r
      · subst hj
        simpa [State.recvOutcome] using (⟨(h.received j).unprepared, hcomp.2, (h.received j).flags.reset, fun hw => by
          have := (h.received j).uncancelled hw
          cases hc : (s.recvs j).stopCallback <;> simp_all [State.resetCallback]⟩ :
          RecvAgrees { s.recvs j with
            done := true, outcomes := (s.recvs j).outcomes ++ [State.recvOutcome (s.recvs j) o],
            stopCallback := State.resetCallback (s.recvs j).stopCallback } _ _)
      · have hp := hrecvs j
        simp only [recvsOf_recv, Ne.symm hj, if_false, recvsOf_nil, List.nil_append] at hp
        have hag := h.received j
        refine ⟨by simpa [hj] using hag.unprepared, ?_, by simpa [hj] using hag.flags,
          by simpa [hj] using hag.uncancelled⟩
        simpa [hj] using hag.tracks.perm (hp.map _)

/-- Before its locked section an operation only moves through its start. -/
theorem Refines.advanceSend (h : Refines s a) {i : RecordId} {phase : Phase} {c : Callback}
    (hi : (s.sends i).phase ≠ .started) (hp : phase ≠ .started)
    (hc : FlagAgrees phase (s.sends i).stopRequestedFlag c) :
    Refines (s.setSend i fun record => { record with phase := phase, stopCallback := c }) a := by
  refine { h with sent := fun j => ?_ }
  by_cases hj : j = i
  · subst hj
    simpa using (⟨(h.sent j).value, (h.sent j).tracks.advance hi hp, hc, fun hw => by
      simp [h.fresh_send hi] at hw⟩ : SendAgrees (a.value j)
        { s.sends j with phase := phase, stopCallback := c } _ _)
  · simpa [hj] using h.sent j

theorem Refines.advanceRecv (h : Refines s a) {r : RecordId} {phase : Phase} {c : Callback}
    (hr : (s.recvs r).phase ≠ .started) (hp : phase ≠ .started)
    (hc : FlagAgrees phase (s.recvs r).stopRequestedFlag c) :
    Refines (s.setRecv r fun record => { record with phase := phase, stopCallback := c }) a := by
  refine { h with received := fun j => ?_ }
  by_cases hj : j = r
  · subst hj
    simpa using (⟨(h.received j).unprepared, (h.received j).tracks.advance hr hp, hc, fun hw => by
      simp [h.fresh_recv hr] at hw⟩ : RecvAgrees
        { s.recvs j with phase := phase, stopCallback := c } _ _)
  · simpa [hj] using h.received j

theorem FlagAgrees.absent_of_early {phase : Phase} {flag : Bool} {c : Callback}
    (h : FlagAgrees phase flag c) (hp : phase = .idle ∨ phase = .checked) :
    flag = false ∧ c = .absent := by
  have hc := h.2 hp
  subst hc
  exact ⟨by simpa using h.1, rfl⟩

/-- Every step of the channel is a step of the abstract channel or invisible to it. -/
theorem simulated_step (h : Refines s a) (ha : a.Inv) {l : Label} {t : State α}
    (ht : step s l = some t) : Simulated a t := by
  cases l with
  -- before its section a send is not in the channel: its steps are refusals or invisible
  | checkSend i stopRequested =>
    simp only [step, Option.ite_none_right_eq_some, Option.some.injEq] at ht
    obtain ⟨hp, rfl⟩ := ht
    have hne : (s.sends i).phase ≠ .started := by simp [hp]
    split_ifs
    · exact simulated_refuseSend h hne not_delivered_stopped h.failed
    · obtain ⟨hf, hc⟩ := (h.sent i).flags.absent_of_early (.inl hp)
      exact .inl (h.advanceSend hne (by simp) (by simp [FlagAgrees, hf, hc]))
  | installSend i installed stopPossible =>
    simp only [step, Option.ite_none_right_eq_some, Option.some.injEq] at ht
    obtain ⟨hp, rfl⟩ := ht
    have hne : (s.sends i).phase ≠ .started := by simp [hp]
    split_ifs
    · obtain ⟨hf, -⟩ := (h.sent i).flags.absent_of_early (.inr hp)
      exact .inl (h.advanceSend hne (by simp) (by simp [FlagAgrees, hf]))
    · obtain ⟨hf, -⟩ := (h.sent i).flags.absent_of_early (.inr hp)
      exact .inl (h.advanceSend hne (by simp) (by simp [FlagAgrees, hf]))
    · exact simulated_refuseSend h hne not_delivered_stopped h.failed
  | startSend i allocated =>
    simp only [step, Option.ite_none_right_eq_some, Option.some.injEq] at ht
    obtain ⟨⟨-, hp⟩, rfl⟩ := ht
    exact simulated_startSend h ha allocated (by simp [hp])
  | recheckSend i =>
    simp only [step, Option.ite_none_right_eq_some, Option.some.injEq] at ht
    obtain ⟨-, rfl⟩ := ht
    exact simulated_recheckSend h ha i
  | flagSend i =>
    simp only [step, Option.ite_none_right_eq_some, Option.some.injEq] at ht
    obtain ⟨hc, rfl⟩ := ht
    have hfl := (h.sent i).flags
    rw [hc] at hfl
    exact .inl (h.callbackSend ⟨by simp, fun hp => by simpa using hfl.2 hp⟩ (by simp))
  | cancelSend i =>
    simp only [step, Option.ite_none_right_eq_some, Option.some.injEq] at ht
    obtain ⟨⟨-, hc⟩, rfl⟩ := ht
    exact simulated_cancelSend h ha hc
  | checkRecv r stopRequested =>
    simp only [step, Option.ite_none_right_eq_some, Option.some.injEq] at ht
    obtain ⟨hp, rfl⟩ := ht
    have hne : (s.recvs r).phase ≠ .started := by simp [hp]
    split_ifs
    · exact simulated_refuseRecv h hne (.inl rfl) h.failed
    · obtain ⟨hf, hc⟩ := (h.received r).flags.absent_of_early (.inl hp)
      exact .inl (h.advanceRecv hne (by simp) (by simp [FlagAgrees, hf, hc]))
  | installRecv r installed stopPossible =>
    simp only [step, Option.ite_none_right_eq_some, Option.some.injEq] at ht
    obtain ⟨hp, rfl⟩ := ht
    have hne : (s.recvs r).phase ≠ .started := by simp [hp]
    split_ifs
    · obtain ⟨hf, -⟩ := (h.received r).flags.absent_of_early (.inr hp)
      exact .inl (h.advanceRecv hne (by simp) (by simp [FlagAgrees, hf]))
    · obtain ⟨hf, -⟩ := (h.received r).flags.absent_of_early (.inr hp)
      exact .inl (h.advanceRecv hne (by simp) (by simp [FlagAgrees, hf]))
    · exact simulated_refuseRecv h hne (.inl rfl) h.failed
  | startRecv r allocated =>
    simp only [step, Option.ite_none_right_eq_some, Option.some.injEq] at ht
    obtain ⟨⟨-, hp⟩, rfl⟩ := ht
    exact simulated_startRecv h ha allocated (by simp [hp])
  | recheckRecv r =>
    simp only [step, Option.ite_none_right_eq_some, Option.some.injEq] at ht
    obtain ⟨-, rfl⟩ := ht
    exact simulated_recheckRecv h ha r
  | flagRecv r =>
    simp only [step, Option.ite_none_right_eq_some, Option.some.injEq] at ht
    obtain ⟨hc, rfl⟩ := ht
    have hfl := (h.received r).flags
    rw [hc] at hfl
    exact .inl (h.callbackRecv ⟨by simp, fun hp => by simpa using hfl.2 hp⟩ (by simp))
  | cancelRecv r =>
    simp only [step, Option.ite_none_right_eq_some, Option.some.injEq] at ht
    obtain ⟨⟨-, hc⟩, rfl⟩ := ht
    exact simulated_cancelRecv h ha hc
  | trySend i allocated =>
    simp only [step, Option.ite_none_right_eq_some, Option.some.injEq] at ht
    obtain ⟨⟨-, hp⟩, rfl⟩ := ht
    exact simulated_trySend h ha allocated (by simp [hp])
  | tryRecv r allocated =>
    simp only [step, Option.ite_none_right_eq_some, Option.some.injEq] at ht
    obtain ⟨⟨-, hp⟩, rfl⟩ := ht
    exact simulated_tryRecv h ha allocated (by simp [hp])
  | close =>
    simp only [step, Option.ite_none_right_eq_some, Option.some.injEq] at ht
    obtain ⟨-, rfl⟩ := ht
    exact simulated_close h ha
  | requestStop =>
    simp only [step, Option.ite_none_right_eq_some, Option.some.injEq] at ht
    obtain ⟨-, rfl⟩ := ht
    exact simulated_requestStop h ha
  -- the outcome was decided in the section, so the completion itself is invisible
  | complete k =>
    simp only [step] at ht
    split at ht
    · rename_i c rest hk
      cases ht
      exact .inl (refines_complete h hk)
    · cases ht

end Steps

/-- Runs of the channel are runs of the abstract channel: what abstract steps keep, they
keep. -/
theorem simulated_run {s t : State α} {a : Spec α} {as : List Label} {P : Spec α → Prop}
    (hP : ∀ b c, b.Inv → Spec.Step b c → P b → P c) (h : Refines s a) (ha : a.Inv) (hPa : P a)
    (ht : run step s as = some t) : ∃ b : Spec α, Refines t b ∧ b.Inv ∧ P b := by
  refine run_preserves (P := fun s => ∃ b : Spec α, Refines s b ∧ b.Inv ∧ P b) ?_
    ⟨a, h, ha, hPa⟩ ht
  rintro s l t ⟨b, href, hb, hPb⟩ hstep
  rcases simulated_step href hb hstep with h | ⟨c, hbc, h⟩
  · exact ⟨b, h, hb, hPb⟩
  · exact ⟨c, h, hbc.inv hb, hP b c hb hbc hPb⟩

/-- Every reachable state of the channel refines an abstract state with all invariants. -/
theorem reachable_refines {s : State α} (h : Reachable step Initial s) :
    ∃ a : Spec α, Refines s a ∧ a.Inv := by
  obtain ⟨s₀, h₀, as, hrun⟩ := h
  obtain ⟨a₀, href, hinv⟩ := refines_initial h₀
  obtain ⟨a, h, ha, -⟩ := simulated_run (P := fun _ => True) (fun _ _ _ _ _ => trivial) href hinv
    trivial hrun
  exact ⟨a, h, ha⟩

end CCForge.Channel
