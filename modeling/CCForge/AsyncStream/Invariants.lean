import CCForge.AsyncStream.Model
import CCForge.Lib.Custody
import CCForge.Lib.Updates

/-!
# Invariants of erased streams

A slot is active while one erased awaitable owns it. The awaitables emplaced in the slots and
the wrapped stream objects are each in custody: held by one stream, or destroyed once.
-/

namespace CCForge.AsyncStream

open CCForge.IoCombinators

variable {T E H : Type} {s t : State T} {id : StreamId} {a b : AwaitableId} {stream : Stream T}
  {awaitable : Awaitable}

/-! ## Who owns a slot -/

/-- The slot that an erased awaitable owns. -/
def State.slotOf (s : State T) (a : AwaitableId) : Option StreamId :=
  (s.awaitables a).bind Awaitable.slot

def State.activeAt (s : State T) (id : StreamId) : Bool :=
  (s.streams id).any fun stream => stream.operation.active

/-- The awaitable constructed in the slot of each stream. -/
def State.storages (s : State T) (id : StreamId) : Option ℕ :=
  (s.streams id).bind fun stream => stream.operation.storage

def State.objectIds (s : State T) (id : StreamId) : Option ℕ :=
  (s.streams id).bind fun stream => stream.object.map Object.id

/-- A slot is active exactly while one awaitable owns it. -/
structure Ownership (active : StreamId → Bool) (slotOf : AwaitableId → Option StreamId) : Prop where
  owned : ∀ id, active id = true ↔ ∃ a, slotOf a = some id
  sole : ∀ a b id, slotOf a = some id → slotOf b = some id → a = b

namespace Ownership

variable {active : StreamId → Bool} {slotOf : AwaitableId → Option StreamId}

theorem congr {active' : StreamId → Bool} (h : Ownership active slotOf) (he : active' = active) :
    Ownership active' slotOf := he ▸ h

theorem none_of_inactive (h : Ownership active slotOf) (hid : active id = false) :
    slotOf a ≠ some id := by
  intro ha
  rw [(h.owned id).mpr ⟨a, ha⟩] at hid
  cases hid

theorem acquire (h : Ownership active slotOf) (ha : slotOf a = none) (hid : active id = false) :
    Ownership (Function.update active id true) (Function.update slotOf a (some id)) := by
  have hcase : ∀ b id', Function.update slotOf a (some id) b = some id' ↔
      (b = a ∧ id' = id) ∨ (id' ≠ id ∧ slotOf b = some id') := by
    intro b id'
    by_cases hb : b = a
    · subst hb
      rw [Function.update_self, ha]
      simp [eq_comm]
    · rw [Function.update_of_ne hb]
      constructor
      · intro hs
        refine .inr ⟨?_, hs⟩
        rintro rfl
        exact h.none_of_inactive hid hs
      · rintro (⟨hb', -⟩ | ⟨-, hs⟩)
        · exact absurd hb' hb
        · exact hs
  refine ⟨?_, ?_⟩
  · intro id'
    by_cases hi : id' = id
    · subst hi
      rw [Function.update_self]
      exact ⟨fun _ => ⟨a, (hcase a id').mpr (.inl ⟨rfl, rfl⟩)⟩, fun _ => rfl⟩
    · rw [Function.update_of_ne hi, h.owned id']
      exact exists_congr fun b => by simp [hcase, hi]
  · intro b c id' hb hc
    obtain ⟨hb, hi⟩ | ⟨hi, hb⟩ := (hcase b id').mp hb
    · obtain ⟨hc, -⟩ | ⟨hi', -⟩ := (hcase c id').mp hc
      · rw [hb, hc]
      · exact absurd hi hi'
    · obtain ⟨-, hi'⟩ | ⟨-, hc⟩ := (hcase c id').mp hc
      · exact absurd hi' hi
      · exact h.sole b c id' hb hc

theorem leave (h : Ownership active slotOf) (ha : slotOf a = some id) :
    Ownership (Function.update active id false) (Function.update slotOf a none) := by
  have hcase : ∀ b id', Function.update slotOf a none b = some id' ↔
      id' ≠ id ∧ slotOf b = some id' := by
    intro b id'
    by_cases hb : b = a
    · subst hb
      rw [Function.update_self, ha]
      simp [eq_comm]
    · rw [Function.update_of_ne hb]
      refine ⟨fun hs => ⟨?_, hs⟩, fun hs => hs.2⟩
      rintro rfl
      exact hb (h.sole b a id' hs ha)
  refine ⟨?_, ?_⟩
  · intro id'
    by_cases hi : id' = id
    · subst hi
      simp [hcase]
    · rw [Function.update_of_ne hi, h.owned id']
      exact exists_congr fun b => by simp [hcase, hi]
  · intro b c id' hb hc
    exact h.sole b c id' ((hcase b id').mp hb).2 ((hcase c id').mp hc).2

/-- A slot goes over from one awaitable to a new one. -/
theorem hand (h : Ownership active slotOf) (hb : slotOf b = none) (hab : a ≠ b) :
    Ownership active (Function.update (Function.update slotOf a none) b (slotOf a)) := by
  have hcase : ∀ c id', Function.update (Function.update slotOf a none) b (slotOf a) c = some id' ↔
      (c = b ∧ slotOf a = some id') ∨ (c ≠ a ∧ slotOf c = some id') := by
    intro c id'
    by_cases hc : c = b
    · subst hc
      rw [Function.update_self, hb]
      simp
    · rw [Function.update_of_ne hc]
      by_cases hca : c = a
      · subst hca
        simp [hc]
      · rw [Function.update_of_ne hca]
        simp [hc, hca]
  refine ⟨?_, ?_⟩
  · intro id'
    rw [h.owned id']
    constructor
    · rintro ⟨c, hc⟩
      by_cases hca : c = a
      · exact ⟨b, (hcase b id').mpr (.inl ⟨rfl, hca ▸ hc⟩)⟩
      · exact ⟨c, (hcase c id').mpr (.inr ⟨hca, hc⟩)⟩
    · rintro ⟨c, hc⟩
      obtain ⟨-, hc⟩ | ⟨-, hc⟩ := (hcase c id').mp hc
      · exact ⟨a, hc⟩
      · exact ⟨c, hc⟩
  · intro c d id' hc hd
    obtain ⟨hcb, hc⟩ | ⟨hca, hc⟩ := (hcase c id').mp hc
    · obtain ⟨hdb, -⟩ | ⟨hda, hd⟩ := (hcase d id').mp hd
      · rw [hcb, hdb]
      · exact absurd (h.sole d a id' hd hc) hda
    · obtain ⟨-, hd⟩ | ⟨-, hd⟩ := (hcase d id').mp hd
      · exact absurd (h.sole c a id' hc hd) hca
      · exact h.sole c d id' hc hd

end Ownership

/-! ## The invariant -/

/-- A slot that is in use holds an awaitable and its operations. -/
def Slot.Fits (slot : Slot T) : Prop :=
  slot.storage.isSome = slot.active ∧ slot.operations.isSome = slot.active

theorem Slot.Fits.eq_empty {slot : Slot T} (h : slot.Fits) (ha : slot.active = false) : slot = {} := by
  obtain ⟨storage, operations, active⟩ := slot
  obtain ⟨hs, ho⟩ := h
  dsimp only at ha hs ho
  subst ha
  simp only [Option.isSome_eq_false_iff, Option.isNone_iff_eq_none] at hs ho
  rw [hs, ho]

/-- A stream with operations has an object, from its own memory resource. -/
structure Stream.Fits (stream : Stream T) : Prop where
  object : stream.object.isSome = stream.operations.isSome
  memory : ∀ object, stream.object = some object → object.memory = stream.memory

structure SlotInv (s : State T) : Prop where
  fits : ∀ id stream, s.streams id = some stream → stream.operation.Fits
  ownership : Ownership s.activeAt s.slotOf
  custody : Custody s.storages s.emplaced s.resets

structure ObjectInv (s : State T) : Prop where
  fits : ∀ id stream, s.streams id = some stream → stream.Fits
  custody : Custody s.objectIds s.objects (s.freed.map fun entry => entry.1.id)
  returned : ∀ entry ∈ s.freed, entry.1.memory = entry.2

structure Inv (s : State T) : Prop where
  slots : SlotInv s
  objects : ObjectInv s
  /-- A stream keeps its object while an operation is in its slot. -/
  open_ : ∀ id stream, s.streams id = some stream → stream.operation.active = true →
    stream.operations.isSome = true
  sound : s.faulted = false

theorem inv_initial (hs : IsInitial s) : Inv s := by
  subst hs
  refine ⟨⟨by simp, ⟨by simp [State.activeAt, State.slotOf], by simp [State.slotOf]⟩, Custody.empty⟩,
    ⟨by simp, Custody.empty, by simp⟩, by simp, rfl⟩

/-! ## Updates -/

theorem activeAt_of (hs : s.streams id = some stream) : s.activeAt id = stream.operation.active := by
  simp [State.activeAt, hs]

theorem storages_of (hs : s.streams id = some stream) : s.storages id = stream.operation.storage := by
  simp [State.storages, hs]

theorem objectIds_of (hs : s.streams id = some stream) :
    s.objectIds id = stream.object.map Object.id := by
  simp [State.objectIds, hs]

theorem slotOf_of (ha : s.awaitables a = some awaitable) : s.slotOf a = awaitable.slot := by
  simp [State.slotOf, ha]

theorem slotOf_of_none (ha : s.awaitables a = none) : s.slotOf a = none := by
  simp [State.slotOf, ha]

@[simp] theorem activeAt_setStream : (s.setStream id stream).activeAt =
    Function.update s.activeAt id stream.operation.active :=
  funext fun _ => Function.apply_update
    (fun _ st => Option.any (fun stream : Stream T => stream.operation.active) st) ..

@[simp] theorem storages_setStream : (s.setStream id stream).storages =
    Function.update s.storages id stream.operation.storage :=
  funext fun _ => Function.apply_update
    (fun _ st => (st : Option (Stream T)).bind fun stream => stream.operation.storage) ..

@[simp] theorem objectIds_setStream : (s.setStream id stream).objectIds =
    Function.update s.objectIds id (stream.object.map Object.id) :=
  funext fun _ => Function.apply_update
    (fun _ st => (st : Option (Stream T)).bind fun stream => stream.object.map Object.id) ..

@[simp] theorem activeAt_removeStream : (s.removeStream id).activeAt =
    Function.update s.activeAt id false :=
  funext fun _ => Function.apply_update
    (fun _ st => Option.any (fun stream : Stream T => stream.operation.active) st) ..

@[simp] theorem storages_removeStream : (s.removeStream id).storages =
    Function.update s.storages id none :=
  funext fun _ => Function.apply_update
    (fun _ st => (st : Option (Stream T)).bind fun stream => stream.operation.storage) ..

@[simp] theorem objectIds_removeStream : (s.removeStream id).objectIds =
    Function.update s.objectIds id none :=
  funext fun _ => Function.apply_update
    (fun _ st => (st : Option (Stream T)).bind fun stream => stream.object.map Object.id) ..

@[simp] theorem slotOf_setAwaitable : (s.setAwaitable a awaitable).slotOf =
    Function.update s.slotOf a awaitable.slot :=
  funext fun _ => Function.apply_update (fun _ aw => (aw : Option Awaitable).bind Awaitable.slot) ..

@[simp] theorem slotOf_removeAwaitable : (s.removeAwaitable a).slotOf =
    Function.update s.slotOf a none :=
  funext fun _ => Function.apply_update (fun _ aw => (aw : Option Awaitable).bind Awaitable.slot) ..

theorem setStream_self (hs : s.streams id = some stream) : s.setStream id stream = s := by
  unfold State.setStream
  rw [← hs, Function.update_eq_self]

theorem forall_setStream {P : Stream T → Prop} (h : ∀ i st, s.streams i = some st → P st)
    (hp : P stream) : ∀ i st, (s.setStream id stream).streams i = some st → P st := by
  intro i st hi
  by_cases hid : i = id
  · subst hid
    simp only [State.setStream, Function.update_self, Option.some.injEq] at hi
    exact hi ▸ hp
  · simp only [State.setStream, Function.update_of_ne hid] at hi
    exact h i st hi

theorem forall_removeStream {P : Stream T → Prop} (h : ∀ i st, s.streams i = some st → P st) :
    ∀ i st, (s.removeStream id).streams i = some st → P st := by
  intro i st hi
  by_cases hid : i = id
  · subst hid
    simp [State.removeStream] at hi
  · simp only [State.removeStream, Function.update_of_ne hid] at hi
    exact h i st hi

theorem SlotInv.storage_eq_none (h : SlotInv s) (hi : s.activeAt id = false) : s.storages id = none := by
  cases hs : s.streams id with
  | none => simp [State.storages, hs]
  | some stream =>
    rw [storages_of hs]
    rw [activeAt_of hs] at hi
    rw [(h.fits id stream hs).eq_empty hi]

/-! ## The slots -/

/-- The slot of a stream that is not active may be replaced by a new one, with the stream. -/
theorem SlotInv.setStream (h : SlotInv s) (hi : s.activeAt id = false) (hop : stream.operation = {}) :
    SlotInv (s.setStream id stream) where
  fits := forall_setStream h.fits (by rw [hop]; exact ⟨rfl, rfl⟩)
  ownership := by
    rw [activeAt_setStream, hop, update_self_of_eq hi]
    exact h.ownership
  custody := by
    rw [storages_setStream, hop, update_self_of_eq (h.storage_eq_none hi)]
    exact h.custody

theorem SlotInv.removeStream (h : SlotInv s) (hi : s.activeAt id = false) :
    SlotInv (s.removeStream id) where
  fits := forall_removeStream h.fits
  ownership := by
    rw [activeAt_removeStream, update_self_of_eq hi]
    exact h.ownership
  custody := by
    rw [storages_removeStream, update_self_of_eq (h.storage_eq_none hi)]
    exact h.custody

theorem SlotInv.setAwaitable (h : SlotInv s) (ha : awaitable.slot = s.slotOf a) :
    SlotInv (s.setAwaitable a awaitable) where
  fits := h.fits
  ownership := by
    rw [slotOf_setAwaitable, update_self_of_eq ha.symm]
    exact h.ownership
  custody := h.custody

theorem SlotInv.removeAwaitable (h : SlotInv s) (ha : s.slotOf a = none) :
    SlotInv (s.removeAwaitable a) where
  fits := h.fits
  ownership := by
    rw [slotOf_removeAwaitable, update_self_of_eq ha]
    exact h.ownership
  custody := h.custody

theorem SlotInv.emplace (h : SlotInv s) (hs : s.streams id = some stream)
    (hi : stream.operation.active = false) (ha : s.slotOf a = none) (operations : SlotOperations T) :
    SlotInv (State.setAwaitable { s.setStream id { stream with
        operation := { storage := some s.emplaced, operations := some operations, active := true } }
      with emplaced := s.emplaced + 1 } a { slot := some id }) where
  fits := forall_setStream h.fits ⟨rfl, rfl⟩
  ownership := by
    rw [slotOf_setAwaitable]
    exact (h.ownership.acquire ha ((activeAt_of hs).trans hi)).congr activeAt_setStream
  custody := (h.custody.make (h.storage_eq_none ((activeAt_of hs).trans hi))).congr storages_setStream

/-- The slot that an awaitable owns holds an awaitable and its operations. -/
theorem SlotInv.exists_of_slotOf (h : SlotInv s) (ha : s.slotOf a = some id) :
    ∃ stream operations n, s.streams id = some stream ∧
      stream.operation = { storage := some n, operations := some operations, active := true } := by
  have hactive := (h.ownership.owned id).mpr ⟨a, ha⟩
  cases hs : s.streams id with
  | none => simp [State.activeAt, hs] at hactive
  | some stream =>
    rw [activeAt_of hs] at hactive
    obtain ⟨hstorage, hoperations⟩ := h.fits id stream hs
    rw [hactive] at hstorage hoperations
    obtain ⟨n, hn⟩ := Option.isSome_iff_exists.mp hstorage
    obtain ⟨operations, ho⟩ := Option.isSome_iff_exists.mp hoperations
    refine ⟨stream, operations, n, rfl, ?_⟩
    rw [← hn, ← ho, ← hactive]

theorem SlotInv.usable (h : SlotInv s) (ha : s.slotOf a = some id) : s.usable id = true := by
  obtain ⟨stream, operations, n, hs, hop⟩ := h.exists_of_slotOf ha
  simp [State.usable, hs, hop]

theorem resetSlot_of {n : ℕ} {operations : SlotOperations T} (hs : s.streams id = some stream)
    (hop : stream.operation = { storage := some n, operations := some operations, active := true }) :
    s.resetSlot id = { s.setStream id { stream with
      operation := { storage := none, operations := none, active := false } } with
      resets := s.resets ++ [n] } := by
  simp only [State.resetSlot, hs, hop]

/-- The owner of a slot leaves it and resets it. -/
theorem SlotInv.leave (h : SlotInv s) (ha : s.slotOf a = some id) (haw : awaitable.slot = none) :
    SlotInv ((s.setAwaitable a awaitable).resetSlot id) := by
  obtain ⟨stream, operations, n, hs, hop⟩ := h.exists_of_slotOf ha
  rw [resetSlot_of (s := s.setAwaitable a awaitable) hs hop]
  refine ⟨forall_setStream h.fits ⟨rfl, rfl⟩, ?_, ?_⟩
  · have hleave := h.ownership.leave ha
    rw [← haw, ← slotOf_setAwaitable] at hleave
    exact hleave.congr activeAt_setStream
  · have hdrop := h.custody.drop ((storages_of hs).trans (congrArg Slot.storage hop))
    exact hdrop.congr storages_setStream

theorem SlotInv.hand (h : SlotInv s) (ha : s.awaitables a = some awaitable) (hb : s.awaitables b = none) :
    SlotInv (s.moveAwaitable a b awaitable) where
  fits := h.fits
  ownership := by
    have hab : a ≠ b := by
      rintro rfl
      rw [ha] at hb
      cases hb
    have hhand := h.ownership.hand (slotOf_of_none hb) hab
    rw [slotOf_of ha] at hhand
    rw [State.moveAwaitable, slotOf_setAwaitable, slotOf_setAwaitable]
    exact hhand
  custody := h.custody

/-! ## The objects -/

theorem ObjectInv.of_eq (h : ObjectInv s) (hs : t.streams = s.streams) (ho : t.objects = s.objects)
    (hf : t.freed = s.freed) : ObjectInv t where
  fits := by
    rw [hs]
    exact h.fits
  custody := by
    unfold State.objectIds
    rw [hs, ho, hf]
    exact h.custody
  returned := by
    rw [hf]
    exact h.returned

/-- Whatever happens to a slot, the object of the stream stays. -/
theorem ObjectInv.setSlot (h : ObjectInv s) (hs : s.streams id = some stream) (slot : Slot T) :
    ObjectInv (s.setStream id { stream with operation := slot }) where
  fits := forall_setStream h.fits ⟨(h.fits id stream hs).object, (h.fits id stream hs).memory⟩
  custody := by
    rw [objectIds_setStream, update_self_of_eq (objectIds_of hs)]
    exact h.custody
  returned := h.returned

/-- `reset_object` on a stream destroys its object, and leaves it without one. -/
theorem ObjectInv.resetObject (h : ObjectInv s) (hs : s.streams id = some stream) :
    ObjectInv (s.resetObject id stream) ∧ (s.resetObject id stream).objectIds id = none ∧
      (s.resetObject id stream).faulted = s.faulted := by
  have hfits := h.fits id stream hs
  unfold State.resetObject
  split
  · next hop =>
    refine ⟨h, ?_, rfl⟩
    have hobject := hfits.object
    rw [hop, Option.isSome_none, Option.isSome_eq_false_iff, Option.isNone_iff_eq_none] at hobject
    rw [objectIds_of hs, hobject]
    rfl
  · next operations hop =>
    split
    · next hobject =>
      have hsome := hfits.object
      rw [hop, hobject] at hsome
      cases hsome
    · next object hobject =>
      refine ⟨⟨forall_setStream h.fits ⟨rfl, by simp⟩, ?_, ?_⟩, ?_, rfl⟩
      · have hdrop := h.custody.drop (n := object.id) (i := id) (by simp [objectIds_of hs, hobject])
        rw [List.map_append]
        exact hdrop.congr objectIds_setStream
      · intro entry hentry
        rw [List.mem_append, List.mem_singleton] at hentry
        obtain hentry | rfl := hentry
        · exact h.returned entry hentry
        · exact hfits.memory object hobject
      · simp [State.objectIds, State.setStream]

theorem ObjectInv.removeStream (h : ObjectInv s) (hid : s.objectIds id = none) :
    ObjectInv (s.removeStream id) where
  fits := forall_removeStream h.fits
  custody := by
    rw [objectIds_removeStream, update_self_of_eq hid]
    exact h.custody
  returned := h.returned

theorem ObjectInv.takeFrom (h : ObjectInv s) {target : StreamId} (hto : s.objectIds target = none)
    (hne : id ≠ target) (hs : s.streams id = some stream) (slot : Slot T) :
    ObjectInv (s.takeFrom target slot id stream) where
  fits := forall_setStream (forall_setStream h.fits
    ⟨(h.fits id stream hs).object, (h.fits id stream hs).memory⟩) ⟨rfl, by simp⟩
  custody := by
    have hmove := h.custody.move hto hne
    rw [objectIds_of hs] at hmove
    rw [State.takeFrom, objectIds_setStream, objectIds_setStream]
    exact hmove
  returned := h.returned

end CCForge.AsyncStream
