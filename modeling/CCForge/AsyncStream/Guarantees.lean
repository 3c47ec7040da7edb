import CCForge.AsyncStream.Invariants

/-!
# What an erased read stream guarantees
-/

namespace CCForge.AsyncStream

open CCForge.IoCombinators

variable {T E H : Type} {s t : State T} {id : StreamId} {a b : AwaitableId} {stream : Stream T}
  {awaitable : Awaitable}

/-! ## Calls on an erased awaitable -/

theorem Inv.setAwaitable (h : Inv s) (ha : awaitable.slot = s.slotOf a) :
    Inv (s.setAwaitable a awaitable) where
  slots := h.slots.setAwaitable ha
  objects := h.objects.of_eq rfl rfl rfl
  open_ := h.open_
  sound := h.sound

theorem Inv.leave (h : Inv s) (ha : s.slotOf a = some id) (haw : awaitable.slot = none) :
    Inv ((s.setAwaitable a awaitable).resetSlot id) := by
  obtain ⟨stream, operations, n, hs, hop⟩ := h.slots.exists_of_slotOf ha
  have hslots := h.slots.leave ha haw
  rw [resetSlot_of (s := s.setAwaitable a awaitable) hs hop] at hslots ⊢
  refine ⟨hslots, ?_, ?_, h.sound⟩
  · have hobjects := h.objects.setSlot hs { storage := none, operations := none, active := false }
    exact hobjects.of_eq rfl rfl rfl
  · refine forall_setStream h.open_ ?_
    intro hactive
    cases hactive

theorem Inv.useSlot (h : Inv s) (ha : s.slotOf a = some id) : s.useSlot id = s := by
  rw [State.useSlot, h.slots.usable ha, if_pos rfl]

theorem release_setAwaitable {awaitable' : Awaitable} :
    (s.setAwaitable a awaitable).release a awaitable' id = s.release a awaitable' id := by
  unfold State.release State.setAwaitable
  rw [Function.update_idem]

/-- The await functions mark the awaitable as started; where the call of the stream throws, they
leave the slot. -/
theorem Inv.startAwaitable (h : Inv s) (ha : s.awaitables a = some awaitable)
    (hid : awaitable.slot = some id) :
    Inv (s.setAwaitable a { awaitable with started := true }) ∧
      (s.setAwaitable a { awaitable with started := true }).useSlot id =
        s.setAwaitable a { awaitable with started := true } ∧
      Inv ((s.setAwaitable a { awaitable with started := true }).release a
        { awaitable with started := true } id) := by
  have hslot : s.slotOf a = some id := (slotOf_of ha).trans hid
  have hstarted : Inv (s.setAwaitable a { awaitable with started := true }) :=
    h.setAwaitable (slotOf_of ha).symm
  refine ⟨hstarted, hstarted.useSlot (a := a) ?_, ?_⟩
  · rw [slotOf_setAwaitable, Function.update_self]
    exact hid
  · rw [release_setAwaitable]
    exact h.leave hslot rfl

theorem Inv.awaitReady (h : Inv s) (ha : s.awaitables a = some awaitable) (answer : Except E Bool) :
    Inv (s.awaitReady (H := H) a awaitable answer).1 := by
  unfold State.awaitReady
  split
  · exact h
  · next id hid =>
    obtain ⟨hstarted, huse, hrelease⟩ := h.startAwaitable ha hid
    dsimp only
    rw [huse]
    cases answer with
    | ok ready => exact hstarted
    | error error => exact hrelease

theorem Inv.awaitSuspend (h : Inv s) (ha : s.awaitables a = some awaitable) (noop continuation : H)
    (answer : Except E (Suspend H)) :
    Inv (s.awaitSuspend a awaitable noop continuation answer).1 := by
  unfold State.awaitSuspend
  split
  · exact h
  · next id hid =>
    obtain ⟨hstarted, huse, hrelease⟩ := h.startAwaitable ha hid
    dsimp only
    rw [huse]
    cases answer with
    | ok suspend => exact hstarted
    | error error => exact hrelease

theorem Inv.awaitResume (h : Inv s) (ha : s.awaitables a = some awaitable)
    (answer : Except E (IoResult ℕ)) : Inv (s.awaitResume (H := H) a awaitable answer).1 := by
  unfold State.awaitResume
  split
  · exact h
  · next id hid =>
    have hslot : s.slotOf a = some id := (slotOf_of ha).trans hid
    have huse : (s.setAwaitable a { awaitable with slot := none }).useSlot id =
        s.setAwaitable a { awaitable with slot := none } := by
      rw [State.useSlot, if_pos]
      exact h.slots.usable hslot
    dsimp only
    rw [huse]
    cases answer with
    | ok result => exact h.leave hslot rfl
    | error error => exact h.leave hslot rfl

theorem resetSlot_setAwaitable :
    (s.resetSlot id).setAwaitable a awaitable = (s.setAwaitable a awaitable).resetSlot id := by
  have hs : (s.setAwaitable a awaitable).streams = s.streams := rfl
  unfold State.resetSlot
  rw [hs]
  cases s.streams id with
  | none => rfl
  | some stream =>
    dsimp only
    cases stream.operation.operations <;> cases stream.operation.storage <;> rfl

theorem Inv.removeAwaitable (h : Inv s) (ha : s.slotOf a = none) : Inv (s.removeAwaitable a) where
  slots := h.slots.removeAwaitable ha
  objects := h.objects.of_eq rfl rfl rfl
  open_ := h.open_
  sound := h.sound

/-- An awaitable that is not started leaves its slot as it is abandoned. -/
theorem Inv.abandonUnstarted (h : Inv s) (ha : s.awaitables a = some awaitable)
    (hstarted : ¬(awaitable.slot.isSome ∧ awaitable.started)) :
    Inv (s.abandonUnstarted a awaitable) ∧ (s.abandonUnstarted a awaitable).slotOf a = none := by
  unfold State.abandonUnstarted
  split
  · next id hid =>
    rw [hid] at hstarted
    rw [if_neg (fun hs => hstarted ⟨rfl, hs⟩)]
    refine ⟨?_, by rw [slotOf_setAwaitable, Function.update_self]⟩
    rw [resetSlot_setAwaitable]
    exact h.leave ((slotOf_of ha).trans hid) rfl
  · next hid =>
    refine ⟨h.setAwaitable ?_, by rw [slotOf_setAwaitable, Function.update_self]⟩
    rw [slotOf_of ha, hid]

theorem Inv.terminate (h : Inv s) : Inv { s with terminated := true } where
  slots := ⟨h.slots.fits, h.slots.ownership, h.slots.custody⟩
  objects := h.objects.of_eq rfl rfl rfl
  open_ := h.open_
  sound := h.sound

theorem Inv.destroyAwaitable (h : Inv s) (ha : s.awaitables a = some awaitable) :
    Inv (s.destroyAwaitable (E := E) (H := H) a awaitable).1 := by
  unfold State.destroyAwaitable
  split
  · exact h.terminate
  · next hstarted =>
    obtain ⟨habandoned, hslot⟩ := h.abandonUnstarted ha hstarted
    exact habandoned.removeAwaitable hslot

/-! ## Calls on a stream -/

theorem Inv.moveAwaitable (h : Inv s) (ha : s.awaitables a = some awaitable)
    (hb : s.awaitables b = none) : Inv (s.moveAwaitable a b awaitable) where
  slots := h.slots.hand ha hb
  objects := h.objects.of_eq rfl rfl rfl
  open_ := h.open_
  sound := h.sound

theorem Inv.construct (h : Inv s) (hid : s.streams id = none) (operations : StreamOperations T)
    (memory : ℕ) (answer : Except E Unit) :
    Inv (s.construct (H := H) id operations memory answer).1 := by
  cases answer with
  | error error => exact h
  | ok _ =>
    have hactive : s.activeAt id = false := by simp [State.activeAt, hid]
    have hobject : s.objectIds id = none := by simp [State.objectIds, hid]
    have hslots : SlotInv (s.setStream id
        { object := some { id := s.objects, memory := memory }, operations := some operations,
          memory := memory }) := h.slots.setStream hactive rfl
    refine ⟨⟨hslots.fits, hslots.ownership, hslots.custody⟩,
      ⟨forall_setStream h.objects.fits ⟨rfl, ?_⟩, ?_, h.objects.returned⟩, forall_setStream h.open_ ?_,
      h.sound⟩
    · intro object hobject
      cases hobject
      rfl
    · exact (h.objects.custody.make hobject).congr objectIds_setStream
    · intro hactive
      cases hactive

theorem Inv.default (h : Inv s) (hid : s.streams id = none) (memory : ℕ) :
    Inv (s.setStream id { memory := memory }) where
  slots := h.slots.setStream (by simp [State.activeAt, hid]) rfl
  objects := by
    refine ⟨forall_setStream h.objects.fits ⟨rfl, by simp⟩, ?_, h.objects.returned⟩
    rw [objectIds_setStream, update_self_of_eq]
    · exact h.objects.custody
    · simp [State.objectIds, hid]
  open_ := by
    refine forall_setStream h.open_ ?_
    intro hactive
    cases hactive
  sound := h.sound

theorem resetObject_streams_other {id' : StreamId} (hne : id' ≠ id) :
    (s.resetObject id stream).streams id' = s.streams id' := by
  unfold State.resetObject
  split
  · rfl
  · split
    · rfl
    · exact Function.update_of_ne hne _ _

/-- A stream that is not active may lose its object. -/
theorem Inv.resetObject (h : Inv s) (hs : s.streams id = some stream)
    (hactive : stream.operation.active = false) :
    Inv (s.resetObject id stream) ∧ (s.resetObject id stream).objectIds id = none ∧
      (s.resetObject id stream).activeAt id = false := by
  have hempty : stream.operation = {} := (h.slots.fits id stream hs).eq_empty hactive
  have hinactive : s.activeAt id = false := (activeAt_of hs).trans hactive
  obtain ⟨hobjects, hnone, hsound⟩ := h.objects.resetObject hs
  have hrest : SlotInv (s.resetObject id stream) ∧ (s.resetObject id stream).activeAt id = false ∧
      ∀ i st, (s.resetObject id stream).streams i = some st → st.operation.active = true →
        st.operations.isSome = true := by
    unfold State.resetObject
    split
    · exact ⟨h.slots, hinactive, h.open_⟩
    · split
      · exact ⟨⟨h.slots.fits, h.slots.ownership, h.slots.custody⟩, hinactive, h.open_⟩
      · have hslots : SlotInv (s.setStream id { stream with object := none, operations := none }) :=
          h.slots.setStream hinactive hempty
        refine ⟨⟨hslots.fits, hslots.ownership, hslots.custody⟩, ?_, forall_setStream h.open_ ?_⟩
        · simp [State.activeAt, State.setStream, hactive]
        · intro hi
          rw [hactive] at hi
          cases hi
  exact ⟨⟨hrest.1, hobjects, hrest.2.2, hsound.trans h.sound⟩, hnone, hrest.2.1⟩

theorem Inv.removeStream (h : Inv s) (hactive : s.activeAt id = false) (hid : s.objectIds id = none) :
    Inv (s.removeStream id) where
  slots := h.slots.removeStream hactive
  objects := h.objects.removeStream hid
  open_ := forall_removeStream h.open_
  sound := h.sound

theorem Inv.takeFrom (h : Inv s) {target : StreamId} (hto : s.objectIds target = none)
    (hactive : s.activeAt target = false) (hne : id ≠ target) (hs : s.streams id = some stream)
    (hinactive : stream.operation.active = false) : Inv (s.takeFrom target {} id stream) where
  slots := by
    have hempty : stream.operation = {} := (h.slots.fits id stream hs).eq_empty hinactive
    refine (h.slots.setStream hactive rfl).setStream ?_ hempty
    rw [activeAt_setStream, Function.update_of_ne hne, activeAt_of hs, hinactive]
  objects := h.objects.takeFrom hto hne hs {}
  open_ := by
    refine forall_setStream (forall_setStream h.open_ ?_) ?_
    · intro hi
      cases hi
    · intro hi
      rw [hinactive] at hi
      cases hi
  sound := h.sound

theorem Inv.moveConstruct (h : Inv s) {target : StreamId} (hto : s.streams target = none)
    (hs : s.streams id = some stream) :
    Inv (s.moveConstruct (E := E) (H := H) target id stream).1 := by
  unfold State.moveConstruct
  split
  · exact h
  · next hactive =>
    refine h.takeFrom (by simp [State.objectIds, hto]) (by simp [State.activeAt, hto]) ?_ hs
      (Bool.eq_false_iff.mpr hactive)
    rintro rfl
    rw [hto] at hs
    cases hs

theorem Inv.moveAssign (h : Inv s) {target : StreamId} {own : Stream T}
    (hto : s.streams target = some own) (hs : s.streams id = some stream) :
    Inv (s.moveAssign (E := E) (H := H) target id own stream).1 := by
  unfold State.moveAssign
  split
  · next hne =>
    split
    · exact h
    · next hown =>
      split
      · exact h
      · next hactive =>
        have hinactive := Bool.eq_false_iff.mpr hown
        obtain ⟨hreset, hnone, hidle⟩ := h.resetObject hto hinactive
        have hslot : own.operation = {} := (h.slots.fits target own hto).eq_empty hinactive
        dsimp only
        rw [hslot]
        exact hreset.takeFrom hnone hidle (Ne.symm hne)
          ((resetObject_streams_other (Ne.symm hne)).trans hs) (Bool.eq_false_iff.mpr hactive)
  · exact h

theorem Inv.resetStream (h : Inv s) (hs : s.streams id = some stream) :
    Inv (s.resetStream (E := E) (H := H) id stream).1 := by
  unfold State.resetStream
  split
  · exact h
  · next hactive => exact (h.resetObject hs (Bool.eq_false_iff.mpr hactive)).1

theorem Inv.destroyStream (h : Inv s) (hs : s.streams id = some stream) :
    Inv (s.destroyStream (E := E) (H := H) id stream).1 := by
  unfold State.destroyStream
  split
  · exact h.terminate
  · next hactive =>
    obtain ⟨hreset, hnone, hidle⟩ := h.resetObject hs (Bool.eq_false_iff.mpr hactive)
    exact hreset.removeStream hidle hnone

theorem emplace_throws (hs : s.streams id = some stream) (hactive : stream.operation.active = false)
    (operations : SlotOperations T) (error : E) :
    s.emplace id stream operations (.error error) = (s, .error error) := by
  have hself : { stream with operation := { stream.operation with active := false } } = stream := by
    rw [← hactive]
  simp only [State.emplace, hactive, Bool.false_eq_true, if_false]
  rw [hself, setStream_self hs]

theorem emplace_active (hactive : stream.operation.active = true) (operations : SlotOperations T)
    (factory : Except E Unit) : s.emplace id stream operations factory =
      (s, .ok { immediateResult := .failure operationInProgress 0 }) := by
  simp only [State.emplace, hactive, if_true]

theorem Inv.readSome (h : Inv s) (hs : s.streams id = some stream) (ha : s.awaitables a = none)
    (factory : Except E Unit) : Inv (s.readSome (H := H) id stream a factory).1 := by
  have hslot := slotOf_of_none ha
  unfold State.readSome
  split
  · exact h.setAwaitable hslot.symm
  · next operations hop =>
    by_cases hactive : stream.operation.active = true
    · rw [emplace_active hactive]
      exact h.setAwaitable hslot.symm
    · have hinactive := Bool.eq_false_iff.mpr hactive
      cases factory with
      | error error =>
        rw [emplace_throws hs hinactive]
        exact h
      | ok _ =>
        simp only [State.emplace, hinactive, Bool.false_eq_true, if_false]
        refine ⟨h.slots.emplace hs hinactive hslot operations.read, ?_, ?_, h.sound⟩
        · exact (h.objects.setSlot hs _).of_eq rfl rfl rfl
        · refine forall_setStream h.open_ ?_
          intro _
          rw [hop]
          rfl

/-! ## Runs -/

theorem Inv.call {call : Call T E H} {outcome : Outcome E H} (h : Inv s)
    (ht : s.call call = some (t, outcome)) : Inv t := by
  cases call with
  | default id memory =>
    simp only [State.call] at ht
    split at ht
    · next hid =>
      cases ht
      exact h.default (Option.isNone_iff_eq_none.mp hid) memory
    · cases ht
  | construct id operations memory answer =>
    simp only [State.call] at ht
    split at ht
    · next hid =>
      have hc := h.construct (H := H) (Option.isNone_iff_eq_none.mp hid) operations memory answer
      rwa [Option.some.inj ht] at hc
    · cases ht
  | moveConstruct target source =>
    simp only [State.call] at ht
    split at ht
    · next hid =>
      obtain ⟨other, hs, he⟩ := Option.map_eq_some_iff.mp ht
      have hc := h.moveConstruct (E := E) (H := H) (Option.isNone_iff_eq_none.mp hid) hs
      rwa [he] at hc
    · cases ht
  | moveAssign target source =>
    obtain ⟨own, hto, hm⟩ := Option.bind_eq_some_iff.mp ht
    obtain ⟨other, hs, he⟩ := Option.map_eq_some_iff.mp hm
    have hc := h.moveAssign (E := E) (H := H) hto hs
    rwa [he] at hc
  | resetStream id =>
    obtain ⟨stream, hs, he⟩ := Option.map_eq_some_iff.mp ht
    have hc := h.resetStream (E := E) (H := H) hs
    rwa [he] at hc
  | destroyStream id =>
    obtain ⟨stream, hs, he⟩ := Option.map_eq_some_iff.mp ht
    have hc := h.destroyStream (E := E) (H := H) hs
    rwa [he] at hc
  | readSome id a factory =>
    simp only [State.call] at ht
    split at ht
    · next ha =>
      obtain ⟨stream, hs, he⟩ := Option.map_eq_some_iff.mp ht
      have hc := h.readSome (H := H) hs (Option.isNone_iff_eq_none.mp ha) factory
      rwa [he] at hc
    · cases ht
  | moveAwaitable source target =>
    simp only [State.call] at ht
    split at ht
    · next hb =>
      obtain ⟨awaitable, ha, he⟩ := Option.map_eq_some_iff.mp ht
      cases he
      exact h.moveAwaitable ha (Option.isNone_iff_eq_none.mp hb)
    · cases ht
  | destroyAwaitable a =>
    obtain ⟨awaitable, ha, he⟩ := Option.map_eq_some_iff.mp ht
    have hc := h.destroyAwaitable (E := E) (H := H) ha
    rwa [he] at hc
  | awaitReady a answer =>
    obtain ⟨awaitable, ha, he⟩ := Option.map_eq_some_iff.mp ht
    have hc := h.awaitReady (H := H) ha answer
    rwa [he] at hc
  | awaitSuspend a noop continuation answer =>
    obtain ⟨awaitable, ha, he⟩ := Option.map_eq_some_iff.mp ht
    have hc := h.awaitSuspend ha noop continuation answer
    rwa [he] at hc
  | awaitResume a answer =>
    obtain ⟨awaitable, ha, he⟩ := Option.map_eq_some_iff.mp ht
    have hc := h.awaitResume (H := H) ha answer
    rwa [he] at hc

theorem inv_step {call : Call T E H} (h : Inv s) (ht : step s call = some t) : Inv t := by
  unfold step at ht
  split at ht
  · cases ht
  · obtain ⟨⟨u, outcome⟩, hc, rfl⟩ := Option.map_eq_some_iff.mp ht
    exact h.call hc

theorem inv_reachable (h : Reachable (step (E := E) (H := H)) IsInitial s) : Inv s :=
  h.preserves (fun _ => inv_initial) fun _ _ _ => inv_step

/-! ## The operation slot -/

/-- What holds of the slots in a state, and of the next calls. -/
structure SlotKept (E H : Type) (s : State T) : Prop where
  active_iff : ∀ id stream, s.streams id = some stream →
    (stream.operation.active = true ↔ ∃! a, s.slotOf a = some id)
  inactive : ∀ id stream, s.streams id = some stream → stream.operation.active = false →
    ∀ a, s.slotOf a ≠ some id
  /-- An owned slot is a slot of a stream that exists. -/
  exists_stream : ∀ a id, s.slotOf a = some id → (s.streams id).isSome = true
  constructed : ∀ id stream, s.streams id = some stream →
    stream.operation.storage.isSome = stream.operation.active ∧
      stream.operation.operations.isSome = stream.operation.active
  /-- Each emplaced awaitable is in one slot, or was reset once. -/
  reset_once : s.resets.Nodup ∧
    (∀ n, n ∈ s.resets ↔ n < s.emplaced ∧ ∀ id, s.storages id ≠ some n) ∧
    (∀ id id' n, s.storages id = some n → s.storages id' = some n → id = id')
  sound : s.faulted = false
  read_active : ∀ id stream a (factory : Except E Unit), s.streams id = some stream →
    s.awaitables a = none → stream.operation.active = true →
    s.call (H := H) (.readSome id a factory) =
      some (s.setAwaitable a { immediateResult := .failure operationInProgress 0 }, .done)
  read_throws : ∀ id stream a (error : E), s.streams id = some stream → s.awaitables a = none →
    stream.operation.active = false → stream.operations.isSome = true →
    s.call (H := H) (.readSome id a (.error error)) = some (s, .threw (.wrapped error))
  move_construct : ∀ target id stream, s.streams target = none → s.streams id = some stream →
    ((s.call (E := E) (H := H) (.moveConstruct target id)).map Prod.snd = some .done ↔
      stream.operation.active = false)
  move_assign : ∀ target id own stream, s.streams target = some own → s.streams id = some stream →
    target ≠ id → ((s.call (E := E) (H := H) (.moveAssign target id)).map Prod.snd = some .done ↔
      own.operation.active = false ∧ stream.operation.active = false)
  move_assign_self : ∀ id stream, s.streams id = some stream →
    s.call (E := E) (H := H) (.moveAssign id id) = some (s, .done)
  reset : ∀ id stream, s.streams id = some stream →
    ((s.call (E := E) (H := H) (.resetStream id)).map Prod.snd = some .done ↔
      stream.operation.active = false)

theorem Inv.active_iff (h : Inv s) (hs : s.streams id = some stream) :
    stream.operation.active = true ↔ ∃! a, s.slotOf a = some id := by
  rw [← activeAt_of hs, h.slots.ownership.owned id]
  constructor
  · rintro ⟨a, ha⟩
    exact ⟨a, ha, fun b hb => h.slots.ownership.sole b a id hb ha⟩
  · rintro ⟨a, ha, -⟩
    exact ⟨a, ha⟩

theorem Inv.read_active (h : Inv s) (hs : s.streams id = some stream) (ha : s.awaitables a = none)
    (hactive : stream.operation.active = true) (factory : Except E Unit) :
    s.call (H := H) (.readSome id a factory) =
      some (s.setAwaitable a { immediateResult := .failure operationInProgress 0 }, .done) := by
  obtain ⟨operations, hop⟩ := Option.isSome_iff_exists.mp (h.open_ id stream hs hactive)
  simp only [State.call, ha, Option.isNone_none, if_true, hs, Option.map_some, State.readSome, hop]
  rw [emplace_active hactive]

theorem read_throws (hs : s.streams id = some stream) (ha : s.awaitables a = none)
    (hactive : stream.operation.active = false) (hopen : stream.operations.isSome = true) (error : E) :
    s.call (H := H) (.readSome id a (.error error)) = some (s, .threw (.wrapped error)) := by
  obtain ⟨operations, hop⟩ := Option.isSome_iff_exists.mp hopen
  simp only [State.call, ha, Option.isNone_none, if_true, hs, Option.map_some, State.readSome, hop]
  rw [emplace_throws hs hactive]

/-- The operation slot of an erased stream is never leaked, reused or freed twice. -/
theorem erased_slot_is_kept (h : Reachable (step (E := E) (H := H)) IsInitial s) :
    SlotKept E H s := by
  have hinv := inv_reachable h
  refine {
    active_iff := fun id stream hs => hinv.active_iff hs
    inactive := ?_
    exists_stream := ?_
    constructed := fun id stream hs => hinv.slots.fits id stream hs
    reset_once := ⟨hinv.slots.custody.nodup, hinv.slots.custody.mem_gone_iff, hinv.slots.custody.unique⟩
    sound := hinv.sound
    read_active := fun id stream a factory hs ha hactive => hinv.read_active hs ha hactive factory
    read_throws := fun id stream a error hs ha hactive hopen => read_throws hs ha hactive hopen error
    move_construct := ?_
    move_assign := ?_
    move_assign_self := ?_
    reset := ?_ }
  · intro id stream hs hactive a
    exact hinv.slots.ownership.none_of_inactive ((activeAt_of hs).trans hactive)
  · intro a id ha
    obtain ⟨stream, -, -, hs, -⟩ := hinv.slots.exists_of_slotOf ha
    rw [hs]
    rfl
  · intro target id stream hto hs
    simp only [State.call, hto, Option.isNone_none, if_true, hs, Option.map_some, State.moveConstruct]
    cases stream.operation.active <;> simp
  · intro target id own stream hto hs hne
    simp only [State.call, hto, hs, Option.map_some, Option.bind_some, State.moveAssign]
    rw [if_pos hne]
    cases own.operation.active <;> cases stream.operation.active <;> simp
  · intro id stream hs
    simp [State.call, hs, State.moveAssign]
  · intro id stream hs
    simp only [State.call, hs, Option.map_some, State.resetStream]
    cases stream.operation.active <;> simp

/-- A stream with one read. -/
def oneRead : List (Call Unit Unit Unit) :=
  [.construct 0 { read := () } 7 (.ok ()), .readSome 0 0 (.ok ())]

def afterOneRead : State Unit := (run step {} oneRead).getD {}

theorem run_oneRead : run (step (T := Unit) (E := Unit) (H := Unit)) {} oneRead = some afterOneRead := rfl

theorem erased_slot_is_kept_busy :
    afterOneRead.call (E := Unit) (H := Unit) (.readSome 0 1 (.ok ())) =
      some (afterOneRead.setAwaitable 1 { immediateResult := .failure operationInProgress 0 }, .done) :=
  (erased_slot_is_kept ⟨{}, rfl, oneRead, run_oneRead⟩).read_active 0 _ 1 (.ok ()) rfl rfl rfl

/-- A self move assignment succeeds while the slot is active. -/
theorem erased_stream_self_move :
    ∃ s : State Unit, Reachable (step (E := Unit) (H := Unit)) IsInitial s ∧
      s.activeAt 0 = true ∧ s.call (E := Unit) (H := Unit) (.moveAssign 0 0) = some (s, .done) :=
  ⟨afterOneRead, ⟨{}, rfl, oneRead, run_oneRead⟩, rfl, rfl⟩

end CCForge.AsyncStream
