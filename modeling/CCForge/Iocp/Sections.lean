import CCForge.Iocp.Invariants

/-!
# The sections under the mutex

The section of a start either registers the record of a call with a packet to come, or leaves the
pending records as they were: a record that is taken out again leaves the state that it was put in.
-/

namespace CCForge.Iocp

variable {s s' t : State} {op : OpId} {handle : Handle} {association : Association} {c : Choice}
  {result : Option StartResult}

/-! ## What the books depend on -/

theorem Counts.congr (h : Counts s) (hrecords : s'.pendingRecords = s.pendingRecords)
    (hpending : s'.pending = s.pending) (hactive : ∀ handle, s'.active handle = s.active handle)
    (hhandle : ∀ op, s'.handleOf op = s.handleOf op)
    (hassociated : ∀ op ∈ s.pendingRecords, s.kernel.isAssociated (s.handleOf op) = true →
      s'.kernel.isAssociated (s.handleOf op) = true)
    (hdue : ∀ op, s'.due op = s.due op) (hmatched : s'.mismatch = s.mismatch) : Counts s' where
  pending := by rw [hpending, hrecords, h.pending]
  active handle := by
    have hof : s'.recordsOf handle = s.recordsOf handle := by
      simp only [State.recordsOf, hrecords, hhandle]
    rw [hactive, hof, h.active]
  associated op hop := by
    rw [hrecords] at hop
    rw [hhandle]
    exact hassociated op hop (h.associated op hop)
  due op := by rw [hdue, hrecords, h.due]
  matched := by rw [hmatched, h.matched]

theorem ModeAt.congr (h : ModeAt s handle)
    (hentry : ∀ association', s'.associatedHandles handle = some association' →
      ∃ association, s.associatedHandles handle = some association ∧
        association.skipsCompletionOnSuccess = association'.skipsCompletionOnSuccess)
    (hobject : s'.kernel.objects handle = s.kernel.objects handle) : ModeAt s' handle where
  mode association' ha' hassociated := by
    obtain ⟨association, ha, hskips⟩ := hentry association' ha'
    rw [Kernel.isAssociated_congr hobject] at hassociated
    rw [Kernel.skips_congr hobject, ← hskips]
    exact h.mode association ha hassociated
  fresh hfresh := by
    rw [Kernel.isAssociated_congr hobject] at hfresh
    rw [Kernel.skips_congr hobject]
    exact h.fresh hfresh

theorem mem_recordsOf : op ∈ s.recordsOf handle ↔ op ∈ s.pendingRecords ∧ s.handleOf op = handle :=
  Finset.mem_filter

/-- The records of a handle are pending on an association. -/
theorem Counts.active_pos (h : Counts s) (hop : op ∈ s.pendingRecords) :
    0 < s.active (s.handleOf op) := by
  rw [h.active]
  exact Finset.card_pos.mpr ⟨op, mem_recordsOf.mpr ⟨hop, rfl⟩⟩

/-- Nothing is pending on an object that is not associated with the port. -/
theorem Counts.active_eq_zero (h : Counts s) (hfresh : s.kernel.isAssociated handle = false) :
    s.active handle = 0 := by
  rw [h.active, Finset.card_eq_zero]
  refine Finset.filter_eq_empty_iff.mpr fun op hop heq => ?_
  have hassociated := h.associated op hop
  rw [heq, hfresh] at hassociated
  cases hassociated

theorem Counts.due_eq_zero (h : Counts s) (hop : op ∉ s.pendingRecords) : s.due op = 0 := by
  rw [h.due, if_neg hop]

/-! ## The associations -/

theorem active_setAssociation (s : State) (handle other : Handle) (association : Association) :
    (s.setAssociation handle association).active other =
      if other = handle then association.active else s.active other := by
  by_cases he : other = handle
  · subst he
    simp [State.active, State.setAssociation]
  · simp [State.active, State.setAssociation, he]

theorem active_of_some (ha : s.associatedHandles handle = some association) :
    s.active handle = association.active := by
  simp [State.active, ha]

theorem exists_of_active_pos (h : 0 < s.active handle) :
    ∃ association, s.associatedHandles handle = some association ∧ 0 < association.active := by
  cases ha : s.associatedHandles handle with
  | none => simp [State.active, ha] at h
  | some association => exact ⟨association, rfl, by simpa [State.active, ha] using h⟩

theorem decrementAssociation_of_pos (ha : s.associatedHandles handle = some association)
    (hpos : 0 < association.active) : s.decrementAssociation handle =
      s.setAssociation handle { association with active := association.active - 1 } := by
  have hne : association.active ≠ 0 := by omega
  simp [State.decrementAssociation, ha, hne]

/-- Only entries without active operations are pruned. -/
theorem pruneIdleAssociations_cases (s : State) (reported : Handle → Bool) (handle : Handle) :
    (s.pruneIdleAssociations reported).associatedHandles handle = s.associatedHandles handle ∨
    ((s.pruneIdleAssociations reported).associatedHandles handle = none ∧ s.active handle = 0) := by
  cases ha : s.associatedHandles handle with
  | none => exact .inl (by simp [State.pruneIdleAssociations, ha])
  | some association =>
    by_cases hidle : association.active = 0 ∧ s.handleIsInvalid handle (reported handle) = true
    · exact .inr ⟨by simp [State.pruneIdleAssociations, ha, hidle], by simp [State.active, ha, hidle]⟩
    · exact .inl (by simp only [State.pruneIdleAssociations, ha, if_neg hidle])

theorem active_pruneIdleAssociations (s : State) (reported : Handle → Bool) (handle : Handle) :
    (s.pruneIdleAssociations reported).active handle = s.active handle := by
  rcases pruneIdleAssociations_cases s reported handle with hsame | ⟨hnone, hzero⟩
  · simp only [State.active, hsame]
  · rw [hzero]
    simp only [State.active, hnone]

/-- The mode is requested where nothing is pending. -/
theorem requestMode_of_idle (hactive : s.active handle = 0) :
    s.requestMode handle c =
      if s.forceCompletionPacketsOnSuccess then s.setAssociation handle ⟨0, false⟩
      else { s with kernel := s.kernel.setSkips handle c.setsMode }.setAssociation handle
        ⟨0, c.setsMode⟩ := by
  cases ha : s.associatedHandles handle with
  | none => simp only [State.requestMode, ha]
  | some association =>
    obtain ⟨active, skips⟩ := association
    obtain rfl : active = 0 := by simpa [State.active, ha] using hactive
    simp only [State.requestMode, ha, if_true]

/-! ## What a start finds -/

/-- The entries and the objects may change, but nothing of what is pending. -/
def Associates (s t : State) : Prop :=
  ∃ objects entries, t = { s with
    kernel := { s.kernel with objects := objects }, associatedHandles := entries }

theorem Associates.refl (s : State) : Associates s s := ⟨s.kernel.objects, s.associatedHandles, rfl⟩

theorem Associates.trans (h : Associates s s') (h' : Associates s' t) : Associates s t := by
  obtain ⟨objects, entries, rfl⟩ := h
  obtain ⟨objects', entries', rfl⟩ := h'
  exact ⟨objects', entries', rfl⟩

theorem Associates.counts (h : Associates s t) (hcounts : Counts s)
    (hactive : ∀ handle, t.active handle = s.active handle)
    (hassociated : ∀ handle, s.kernel.isAssociated handle = true →
      t.kernel.isAssociated handle = true) : Counts t := by
  obtain ⟨objects, entries, rfl⟩ := h
  exact hcounts.congr rfl rfl hactive (fun _ => rfl) (fun op _ => hassociated _) (fun _ => rfl) rfl

/-- The state that the section is in when the record is to be registered. -/
structure Prepared (s t : State) : Prop where
  associates : Associates s t
  counts : Counts t
  modes : ∀ handle, ModeAt t handle

theorem Prepared.trans (h : Prepared s s') (h' : Prepared s' t) : Prepared s t :=
  ⟨h.associates.trans h'.associates, h'.counts, h'.modes⟩

theorem prune_prepared (hcounts : Counts s) (hmodes : ∀ handle, ModeAt s handle)
    (reported : Handle → Bool) : Prepared s (s.pruneIdleAssociations reported) := by
  have hassociates : Associates s (s.pruneIdleAssociations reported) := ⟨s.kernel.objects, _, rfl⟩
  refine ⟨hassociates, hassociates.counts hcounts (active_pruneIdleAssociations s reported)
    fun handle => id, fun handle => (hmodes handle).congr ?_ rfl⟩
  intro association ha
  rcases pruneIdleAssociations_cases s reported handle with hsame | ⟨hnone, -⟩
  · rw [hsame] at ha
    exact ⟨association, ha, rfl⟩
  · rw [hnone] at ha
    cases ha

/-- An object is associated, and the entry of its handle has the mode of the object or is missing. -/
theorem Associates.prepared {object : Object} (h : Associates s t) (hcounts : Counts s)
    (hmodes : ∀ handle, ModeAt s handle) (hidle : s.active handle = 0) (hidle' : t.active handle = 0)
    (hobjects : t.kernel.objects = Function.update s.kernel.objects handle (some object))
    (hassociated' : object.associated = true)
    (hothers : ∀ other, other ≠ handle → t.associatedHandles other = s.associatedHandles other)
    (hmode : ∀ association, t.associatedHandles handle = some association →
      association.skipsCompletionOnSuccess = object.skips) : Prepared s t := by
  have hself : t.kernel.objects handle = some object := by rw [hobjects, Function.update_self]
  have hother : ∀ other, other ≠ handle → t.kernel.objects other = s.kernel.objects other := by
    intro other hne
    rw [hobjects, Function.update_of_ne hne]
  refine ⟨h, h.counts hcounts (fun other => ?_) fun other hassociated => ?_, fun other => ?_⟩
  all_goals by_cases he : other = handle
  · rw [he, hidle, hidle']
  · simp only [State.active, hothers other he]
  · rw [he, Kernel.isAssociated, hself]
    exact hassociated'
  · rwa [Kernel.isAssociated_congr (hother other he)]
  · subst he
    refine ⟨fun association ha _ => ?_, fun hfresh => ?_⟩
    · simp [hmode association ha, Kernel.skips, hself]
    · simp [Kernel.isAssociated, hself, hassociated'] at hfresh
  · refine (hmodes other).congr (fun association ha => ⟨association, ?_, rfl⟩) (hother other he)
    rw [← hothers other he, ha]

/-- The mode that an entry gets is the mode of the object, which had none yet. -/
theorem requestMode_spec {object : Object} (hactive : s.active handle = 0)
    (hobject : s.kernel.objects handle = some object) (hskips : object.skips = false) :
    ∃ skips, Associates s (s.requestMode handle c) ∧
      (s.requestMode handle c).associatedHandles =
        Function.update s.associatedHandles handle (some ⟨0, skips⟩) ∧
      (s.requestMode handle c).kernel.objects =
        Function.update s.kernel.objects handle (some { object with skips := skips }) := by
  rw [requestMode_of_idle hactive]
  split
  · refine ⟨false, ⟨s.kernel.objects, _, rfl⟩, rfl, ?_⟩
    rw [← hskips, ← hobject, Function.update_eq_self]
    rfl
  · have hkernel := s.kernel.setSkips_eq handle c.setsMode
    refine ⟨c.setsMode, ⟨(s.kernel.setSkips handle c.setsMode).objects,
      Function.update s.associatedHandles handle (some ⟨0, c.setsMode⟩), ?_⟩, rfl, ?_⟩
    · rw [← hkernel]
      rfl
    have hset := Kernel.objects_setSkips hobject c.setsMode
    rw [hskips, Bool.false_or] at hset
    exact hset

/-- An object that was just associated has no mode yet, and nothing is pending on it. -/
theorem associate_fresh {object : Object} (hcounts : Counts s) (hmode : ModeAt s handle)
    (hobject : s.kernel.objects handle = some object) (hnot : object.associated = false) :
    s.active handle = 0 ∧ object.skips = false := by
  have hfresh : s.kernel.isAssociated handle = false := by simp [Kernel.isAssociated, hobject, hnot]
  have hskips := hmode.fresh hfresh
  exact ⟨hcounts.active_eq_zero hfresh, by simpa [Kernel.skips, hobject] using hskips⟩

/-- After the association, and also where the entry cannot be allocated, the section is prepared. -/
theorem associate_prepared {object associated : Object} (hcounts : Counts s)
    (hmodes : ∀ handle, ModeAt s handle) (hobject : s.kernel.objects handle = some object)
    (hnot : object.associated = false) (hassociated : associated = { object with associated := true })
    (ht : t = { s with kernel := s.kernel.setObject handle (some associated) }) :
    (s.associatedHandles handle = none → Prepared s t) ∧
    ∃ skips, Prepared s (t.requestMode handle c) ∧
      (t.requestMode handle c).associatedHandles handle = some ⟨0, skips⟩ ∧
      (t.requestMode handle c).kernel.isAssociated handle = true := by
  obtain ⟨hidle, hskips⟩ := associate_fresh hcounts (hmodes handle) hobject hnot
  have hassociates : Associates s t := ⟨_, _, ht⟩
  have hentries : t.associatedHandles = s.associatedHandles := by rw [ht]
  have hobjects : t.kernel.objects = Function.update s.kernel.objects handle (some associated) := by
    rw [ht]
    rfl
  have hidle' : t.active handle = 0 := by simpa only [State.active, hentries] using hidle
  constructor
  · intro hnone
    refine hassociates.prepared hcounts hmodes hidle hidle' hobjects (by rw [hassociated])
      (fun other _ => by rw [hentries]) fun association ha => ?_
    rw [hentries, hnone] at ha
    cases ha
  · obtain ⟨skips, hrequests, hentries', hobjects'⟩ := requestMode_spec (c := c) hidle'
      (by rw [hobjects, Function.update_self]) (by rw [hassociated, hskips])
    rw [hobjects, Function.update_idem] at hobjects'
    have hentry : (t.requestMode handle c).associatedHandles handle = some ⟨0, skips⟩ := by
      rw [hentries', Function.update_self]
    refine ⟨skips, (hassociates.trans hrequests).prepared hcounts hmodes hidle (active_of_some hentry)
      hobjects' (by rw [hassociated]) (fun other hne => ?_) fun association ha => ?_, hentry, ?_⟩
    · rw [hentries', Function.update_of_ne hne, hentries]
    · rw [hentry] at ha
      cases ha
      rfl
    · simp [Kernel.isAssociated, hobjects', hassociated]

/-! ## The record -/

/-- A record that is registered and taken out again leaves the state as it was. -/
theorem unregister_register (hop : op ∉ s.pendingRecords)
    (ha : s.associatedHandles (s.handleOf op) = some association) :
    (s.register op association).unregister op = s := by
  have hback : Function.update s.associatedHandles (s.handleOf op) (some association) =
      s.associatedHandles := by
    rw [← ha, Function.update_eq_self]
  simp only [State.unregister, State.decrementAssociation, State.register, State.setAssociation,
    State.handleOf, Function.update_self, Nat.add_eq_zero_iff, one_ne_zero, and_false, if_false]
  simp only [Finset.erase_insert hop, Function.update_idem, Nat.add_sub_cancel]
  rw [← State.handleOf, hback]

/-- The record of a call with a packet to come is registered. -/
structure Registers (s : State) (op : OpId) (s' : State) : Prop where
  running : s.closed = false ∧ s.stopped = false
  associated : s.kernel.isAssociated (s.handleOf op) = true
  pendingRecords : s'.pendingRecords = insert op s.pendingRecords
  pending : s'.pending = s.pending + 1
  active : ∀ handle, s'.active handle = s.active handle + if handle = s.handleOf op then 1 else 0
  entries : ∀ handle association', s'.associatedHandles handle = some association' →
    ∃ association, s.associatedHandles handle = some association ∧
      association.skipsCompletionOnSuccess = association'.skipsCompletionOnSuccess
  calls : ∃ call, s'.kernel.calls = Function.update s.kernel.calls op (some call)
  kernel : s'.kernel = { s.kernel with
    calls := s'.kernel.calls, packets := Function.update s.kernel.packets op (s.kernel.packets op + 1) }
  rest : s' = { s with
    kernel := s'.kernel, pendingRecords := s'.pendingRecords, pending := s'.pending,
    associatedHandles := s'.associatedHandles }

theorem register_registers {issued : Issued} (hrunning : s.closed = false ∧ s.stopped = false)
    (ha : s.associatedHandles (s.handleOf op) = some association)
    (hassociated : s.kernel.isAssociated (s.handleOf op) = true)
    (hdue : s.kernel.packetDue (s.handleOf op) (s.ops op).request.kind issued = true) :
    Registers s op ((s.register op association).issue op issued) := by
  have hissue : ((s.register op association).issue op issued).kernel = _ :=
    Kernel.issue_of_due (k := s.kernel) op
      ⟨s.handleOf op, (s.ops op).request.kind, windowsTransferSize (s.ops op).request.size, false⟩ hdue
  refine ⟨hrunning, hassociated, rfl, rfl, fun handle => ?_, fun handle association' ha' => ?_, ?_, ?_,
    rfl⟩
  · change (State.setAssociation _ _ _).active handle = _
    rw [active_setAssociation]
    split
    · next he => rw [he, active_of_some ha]
    · rfl
  · change Function.update s.associatedHandles (s.handleOf op) _ handle = some association' at ha'
    by_cases he : handle = s.handleOf op
    · subst he
      rw [Function.update_self, Option.some.injEq] at ha'
      exact ⟨association, ha, by rw [← ha']⟩
    · rw [Function.update_of_ne he] at ha'
      exact ⟨association', ha', rfl⟩
  · rw [hissue]
    exact ⟨_, rfl⟩
  · rw [hissue]

/-- A call without a packet leaves the state as it was. -/
theorem issue_of_not_due {issued : Issued}
    (h : s.kernel.packetDue (s.handleOf op) (s.ops op).request.kind issued = false) :
    s.issue op issued = s := by
  unfold State.issue
  dsimp only
  rw [Kernel.issue_of_not_due]
  exact h

/-- The record is registered exactly if a packet is to come. -/
theorem submit_spec (hmodes : ∀ handle, ModeAt s handle) (hop : op ∉ s.pendingRecords)
    (hrunning : s.closed = false ∧ s.stopped = false)
    (ha : s.associatedHandles (s.handleOf op) = some association)
    (hassociated : s.kernel.isAssociated (s.handleOf op) = true)
    (h : s.submit op association c = (s', result)) :
    (result ≠ some .accepted ∧ s' = s) ∨ (result = some .accepted ∧ Registers s op s') := by
  have hback := unregister_register hop ha
  have hmode := (hmodes (s.handleOf op)).mode association ha hassociated
  have hrefused : s.kernel.packetDue (s.handleOf op) (s.ops op).request.kind c.issued = false →
      (s.register op association).issue op c.issued = s.register op association :=
    fun hnot => issue_of_not_due (s := s.register op association) hnot
  unfold State.submit at h
  dsimp only at h
  split at h
  · -- The allocation of the record throws.
    cases h
    exact .inl ⟨by rintro ⟨⟩, rfl⟩
  · cases hi : c.issued with
    | failed error =>
      rw [hi] at h hrefused
      dsimp only at h
      split at h
      · next hdue =>
        cases h
        refine .inr ⟨rfl, register_registers hrunning ha hassociated ?_⟩
        simpa [Kernel.packetDue] using hdue
      · next hnot =>
        rw [hrefused (by simpa [Kernel.packetDue] using hnot), hback] at h
        split at h <;> cases h <;> exact .inl ⟨by rintro ⟨⟩, rfl⟩
    | succeeded bytes =>
      rw [hi] at h hrefused
      dsimp only at h
      split at h
      · next hdue =>
        cases h
        refine .inr ⟨rfl, register_registers hrunning ha hassociated ?_⟩
        simp [Kernel.packetDue, ← hmode, hdue]
      · next hnot =>
        have hskips : s.kernel.skips (s.handleOf op) = true := by
          rw [← hmode]
          simpa using hnot
        rw [hrefused (by simp [Kernel.packetDue, hskips]), hback] at h
        cases h
        exact .inl ⟨by rintro ⟨⟩, rfl⟩

theorem Registers.ops (h : Registers s op s') : s'.ops = s.ops := by rw [h.rest]

theorem Registers.card_recordsOf (h : Registers s op s') (hop : op ∉ s.pendingRecords) (handle : Handle) :
    (s'.recordsOf handle).card = (s.recordsOf handle).card + if handle = s.handleOf op then 1 else 0 := by
  have hof : s'.recordsOf handle =
      (insert op s.pendingRecords).filter fun op => s.handleOf op = handle := by
    simp only [State.recordsOf, State.handleOf, h.pendingRecords, h.ops]
    rfl
  rw [hof, Finset.filter_insert]
  by_cases he : handle = s.handleOf op
  · rw [if_pos he.symm, if_pos he, Finset.card_insert_of_notMem fun hm => hop (Finset.mem_filter.mp hm).1]
    rfl
  · rw [if_neg fun heq => he heq.symm, if_neg he]
    rfl

/-- The counters count the record with its packet. -/
theorem Registers.counts (h : Registers s op s') (hcounts : Counts s) (hop : op ∉ s.pendingRecords) :
    Counts s' := by
  have hzero := hcounts.due_eq_zero hop
  have hcalls : s.kernel.calls op = none := by
    by_contra hne
    have hsome := Option.isSome_iff_ne_none.mpr hne
    simp only [State.due, Kernel.outstanding, hsome, if_true] at hzero
    omega
  constructor
  · rw [h.pending, h.pendingRecords, Finset.card_insert_of_notMem hop, hcounts.pending]
  · intro handle
    rw [h.active, h.card_recordsOf hop, hcounts.active]
  · intro other hother
    rw [h.pendingRecords] at hother
    rw [State.handleOf, h.ops, Kernel.isAssociated, h.kernel]
    rcases Finset.mem_insert.mp hother with rfl | hmem
    · exact h.associated
    · exact hcounts.associated other hmem
  · intro other
    obtain ⟨call, hcall⟩ := h.calls
    have hissued := Kernel.outstanding_call hcall (by rw [h.kernel]) hcalls other
    have hsum : s'.due other = s.due other + if other = op then 1 else 0 := by
      rw [State.due, hissued, State.due, h.rest]
      exact Nat.add_right_comm ..
    rw [hsum, hcounts.due, h.pendingRecords]
    by_cases he : other = op
    · simp [he, hop]
    · simp [he]
  · rw [h.rest]
    exact hcounts.matched

theorem Registers.modeAt (h : Registers s op s') (hmode : ModeAt s handle) : ModeAt s' handle :=
  hmode.congr (h.entries handle) (by rw [h.kernel])

/-- The section of a start registers the record or leaves what is pending as it was. -/
theorem start_spec (hcounts : Counts s) (hmodes : ∀ handle, ModeAt s handle)
    (hop : op ∉ s.pendingRecords) (h : s.start op c = some (s', result)) :
    ∃ t, Prepared s t ∧ ((result ≠ some .accepted ∧ s' = t) ∨
      (result = some .accepted ∧ Registers t op s')) := by
  have hsame : Prepared s s := ⟨.refl s, hcounts, hmodes⟩
  unfold State.start at h
  dsimp only at h
  split at h
  · cases h
    exact ⟨s, hsame, .inl ⟨by rintro ⟨⟩, rfl⟩⟩
  next hclosed =>
  have hrunning : s.closed = false ∧ s.stopped = false := by simpa [not_or] using hclosed
  split at h
  · cases h
    exact ⟨s, hsame, .inl ⟨by rintro ⟨⟩, rfl⟩⟩
  split at h
  · cases h
    exact ⟨s, hsame, .inl ⟨by rintro ⟨⟩, rfl⟩⟩
  have hpruned := prune_prepared hcounts hmodes c.invalid
  obtain ⟨kernel, hkernel, h⟩ := Option.map_eq_some_iff.mp h
  generalize s.pruneIdleAssociations c.invalid = p at hpruned hkernel h
  have hhandle : s.handleOf op = p.handleOf op := by
    obtain ⟨-, -, rfl⟩ := hpruned.associates
    rfl
  have hrunning' : p.closed = false ∧ p.stopped = false := by
    obtain ⟨-, -, rfl⟩ := hpruned.associates
    exact hrunning
  have hop' : op ∉ p.pendingRecords := by
    obtain ⟨-, -, rfl⟩ := hpruned.associates
    exact hop
  rw [hhandle] at hkernel h
  rcases Kernel.associate_cases hkernel with
    ⟨hnone, object, hobject, hnot, rfl⟩ | ⟨rfl, error, hsome, hinvalid⟩
  · -- The object was not associated, so its mode is requested now.
    rw [hnone] at h
    dsimp only at h
    obtain ⟨hmissing, skips, hrequested, hentry, hassociated⟩ :=
      associate_prepared (c := c) hpruned.counts hpruned.modes hobject hnot rfl rfl
    split at h
    · next hthrows =>
      cases h
      exact ⟨_, hpruned.trans (hmissing hthrows.1), .inl ⟨by rintro ⟨⟩, rfl⟩⟩
    · rw [hentry] at h
      obtain ⟨objects, entries, heq⟩ := hrequested.associates
      have hprepared := hpruned.trans hrequested
      rw [heq] at h hprepared hentry hassociated
      exact ⟨_, hprepared, submit_spec hprepared.modes hop' hrunning' hentry hassociated h⟩
  · -- The object is associated already, or cannot be.
    rw [hsome] at h
    dsimp only at h
    split at h
    · cases h
      exact ⟨p, hpruned, .inl ⟨by rintro ⟨⟩, rfl⟩⟩
    · next association ha =>
      split at h
      · cases h
        exact ⟨p, hpruned, .inl ⟨by rintro ⟨⟩, rfl⟩⟩
      · next heq =>
        have hassociated := hinvalid (by simpa using heq)
        exact ⟨p, hpruned, submit_spec hpruned.modes hop' hrunning' ha hassociated h⟩

/-- The worker takes a pending record out. -/
structure Takes (s : State) (op : OpId) (s' : State) : Prop where
  pendingRecords : s'.pendingRecords = s.pendingRecords.erase op
  pending : s'.pending = s.pending - 1
  active : ∀ handle, s'.active handle = s.active handle - if handle = s.handleOf op then 1 else 0
  entries : ∀ handle association', s'.associatedHandles handle = some association' →
    ∃ association, s.associatedHandles handle = some association ∧
      association.skipsCompletionOnSuccess = association'.skipsCompletionOnSuccess
  rest : s' = { s with
    pendingRecords := s'.pendingRecords, pending := s'.pending,
    associatedHandles := s'.associatedHandles }

/-- Neither guard finds a counter at zero. -/
theorem take_spec (hcounts : Counts s) (hop : op ∈ s.pendingRecords) :
    (s.take op).2 = true ∧ Takes s op (s.take op).1 := by
  obtain ⟨association, ha, hpos⟩ := exists_of_active_pos (hcounts.active_pos hop)
  have hpending : 0 < s.pending := by
    rw [hcounts.pending]
    exact Finset.card_pos.mpr ⟨op, hop⟩
  have htake : s.take op = ({ s with
      pendingRecords := s.pendingRecords.erase op, pending := s.pending - 1,
      associatedHandles := Function.update s.associatedHandles (s.handleOf op)
        (some { association with active := association.active - 1 }) }, true) := by
    have hdecrement := decrementAssociation_of_pos
      (s := { s with pendingRecords := s.pendingRecords.erase op }) ha hpos
    simp only [State.take, if_pos hop, hdecrement, State.setAssociation]
    exact if_pos hpending
  rw [htake]
  refine ⟨rfl, rfl, rfl, fun handle => ?_, fun handle association' ha' => ?_, rfl⟩
  · change (s.setAssociation _ _).active handle = _
    rw [active_setAssociation]
    split
    · next he => rw [he, active_of_some ha]
    · rfl
  · change Function.update s.associatedHandles (s.handleOf op) _ handle = some association' at ha'
    by_cases he : handle = s.handleOf op
    · subst he
      rw [Function.update_self, Option.some.injEq] at ha'
      exact ⟨association, ha, by rw [← ha']⟩
    · rw [Function.update_of_ne he] at ha'
      exact ⟨association', ha', rfl⟩

theorem Takes.ops (h : Takes s op s') : s'.ops = s.ops := by rw [h.rest]

theorem Takes.card_recordsOf (h : Takes s op s') (hop : op ∈ s.pendingRecords) (handle : Handle) :
    (s'.recordsOf handle).card = (s.recordsOf handle).card - if handle = s.handleOf op then 1 else 0 := by
  have hof : s'.recordsOf handle = (s.recordsOf handle).erase op := by
    simp only [State.recordsOf, State.handleOf, h.pendingRecords, h.ops, Finset.filter_erase]
    rfl
  rw [hof]
  by_cases he : handle = s.handleOf op
  · rw [if_pos he, Finset.card_erase_of_mem (mem_recordsOf.mpr ⟨hop, he.symm⟩)]
  · rw [if_neg he, Finset.erase_eq_of_notMem fun hm => he (mem_recordsOf.mp hm).2.symm, Nat.sub_zero]

/-- With the record goes the packet that the worker has in its hands. -/
theorem Takes.counts (h : Takes s op s') (hcounts : Counts s) (hop : op ∈ s.pendingRecords)
    (hdrains : ∀ other, s.worker.drains other = decide (op = other)) {worker : WorkerStage}
    (hworker : ∀ other, worker.drains other = false) : Counts { s' with worker := worker } := by
  constructor
  · change s'.pending = s'.pendingRecords.card
    rw [h.pending, h.pendingRecords, Finset.card_erase_of_mem hop, hcounts.pending]
  · intro handle
    change s'.active handle = (s'.recordsOf handle).card
    rw [h.active, h.card_recordsOf hop, hcounts.active]
  · intro other hother
    change other ∈ s'.pendingRecords at hother
    change s'.kernel.isAssociated (s'.handleOf other) = true
    rw [h.pendingRecords] at hother
    rw [State.handleOf, h.rest]
    exact hcounts.associated other (Finset.mem_of_mem_erase hother)
  · intro other
    have hdue := hcounts.due other
    have hkernel : s'.kernel = s.kernel := by rw [h.rest]
    simp only [State.due, hdrains, hworker, hkernel, h.pendingRecords, Finset.mem_erase] at hdue ⊢
    by_cases he : other = op
    · simp_all
    · simpa [he, Ne.symm he] using hdue
  · change s'.mismatch = false
    rw [h.rest]
    exact hcounts.matched

theorem Takes.modeAt (h : Takes s op s') (hmode : ModeAt s handle) : ModeAt s' handle :=
  hmode.congr (h.entries handle) (by rw [h.rest])

end CCForge.Iocp
