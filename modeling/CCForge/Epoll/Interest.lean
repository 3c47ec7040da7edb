import CCForge.Epoll.Registry

/-!
# Updates of the interest

What an update of the interest of one descriptor changes, whatever its calls to the kernel do.
-/

namespace CCForge.Epoll

namespace FdWaiters

variable {w v : FdWaiters} {record : Record} {kind : Readiness}

theorem slot_setSlot (w : FdWaiters) (kind : Readiness) (x : Option Record) :
    (w.setSlot kind x).slot kind = x := by
  cases kind <;> rfl

theorem slot_setSlot_other {other : Readiness} (w : FdWaiters) (x : Option Record) (h : other ≠ kind) :
    (w.setSlot kind x).slot other = w.slot other := by
  cases kind <;> cases other <;> first | rfl | exact absurd rfl h

@[simp] theorem registered_setSlot (w : FdWaiters) (kind : Readiness) (x : Option Record) :
    (w.setSlot kind x).registered = w.registered := by
  cases kind <;> rfl

theorem empty_eq_false_iff : w.empty = false ↔ ∃ kind record, w.slot kind = some record := by
  constructor
  · intro h
    simp only [empty, Bool.and_eq_false_iff, Option.isNone_eq_false_iff] at h
    obtain h | h := h
    · obtain ⟨record, hr⟩ := Option.isSome_iff_exists.mp h
      exact ⟨.read, record, hr⟩
    · obtain ⟨record, hr⟩ := Option.isSome_iff_exists.mp h
      exact ⟨.write, record, hr⟩
  · rintro ⟨kind, record, hr⟩
    cases kind with
    | read => simp [empty, show w.read = some record from hr]
    | write => simp [empty, show w.write = some record from hr]

/-- Fewer waiters, fewer events. -/
theorem events_subset (h : ∀ kind, (v.slot kind).isSome = true → (w.slot kind).isSome = true) :
    v.events ⊆ w.events := by
  have hread := h .read
  have hwrite := h .write
  simp only [slot] at hread hwrite
  unfold events
  refine Finset.union_subset_union (Finset.union_subset_union (Finset.Subset.refl _) ?_) ?_
  · by_cases hv : v.read.isSome = true
    · rw [if_pos hv, if_pos (hread hv)]
    · rw [if_neg hv]
      exact Finset.empty_subset _
  · by_cases hv : v.write.isSome = true
    · rw [if_pos hv, if_pos (hwrite hv)]
    · rw [if_neg hv]
      exact Finset.empty_subset _

end FdWaiters

/-! ## The update of the interest -/

section Update

variable {kernel kernel' : Kernel} {op : CtlOp} {fd : ℤ} {mask : Mask} {fail : Fail} {error : ℕ}
  {w : FdWaiters} {fails : Fails}

theorem epollCtl_other (kernel : Kernel) (op : CtlOp) (fd : ℤ) (mask : Mask) (fail : Fail) (i : ℤ)
    (hi : i ≠ fd) : (epollCtl kernel op fd mask fail).1 i = kernel i := by
  unfold epollCtl
  split
  · rfl
  · split <;> first | rfl | exact Function.update_of_ne hi _ _

theorem epollCtl_mask (hop : op ≠ .del) (h : epollCtl kernel op fd mask fail = (kernel', none)) :
    kernel' = Function.update kernel fd (some mask) := by
  unfold epollCtl at h
  split at h
  · cases h
  · split at h <;> first | (cases h; rfl) | exact absurd rfl hop | cases h

theorem epollCtl_error (h : epollCtl kernel op fd mask fail = (kernel', some error)) :
    kernel' = kernel := by
  unfold epollCtl at h
  split at h
  · cases h
    rfl
  · split at h <;> cases h <;> rfl

/-- With waiters, an update either watches their events or changes nothing. -/
theorem watch_spec (kernel : Kernel) (fd : ℤ) (w : FdWaiters) (fails : Fails) :
    watch kernel fd w fails =
      ⟨Function.update kernel fd (some w.events), { w with registered := true }, none⟩ ∨
    ∃ error, watch kernel fd w fails = ⟨kernel, w, some error⟩ := by
  unfold watch
  dsimp only
  have hop : (if w.registered = true then CtlOp.mod else CtlOp.add) ≠ .del := by
    split <;> exact CtlOp.noConfusion
  generalize (if w.registered = true then CtlOp.mod else CtlOp.add) = op at *
  split
  · next heq => exact .inl (by rw [epollCtl_mask hop heq])
  · next error heq =>
    obtain rfl := epollCtl_error heq
    split
    · exact .inr ⟨_, rfl⟩
    · next op' hrecovery =>
      have hop' : op' ≠ .del := by
        split at hrecovery
        · cases hrecovery
          exact CtlOp.noConfusion
        · split at hrecovery <;> cases hrecovery
          exact CtlOp.noConfusion
      split
      · next heq' => exact .inl (by rw [epollCtl_mask hop' heq'])
      · next heq' =>
        obtain rfl := epollCtl_error heq'
        exact .inr ⟨_, rfl⟩

/-- Whatever the calls do, only the kernel's entry for the descriptor and the flag change. -/
theorem updateInterest_frame (kernel : Kernel) (fd : ℤ) (w : FdWaiters) (fails : Fails) :
    (∀ i, i ≠ fd → (updateInterest kernel fd w fails).kernel i = kernel i) ∧
      ∀ kind, (updateInterest kernel fd w fails).waiters.slot kind = w.slot kind := by
  unfold updateInterest
  split
  · unfold unwatch
    split
    · have hother := epollCtl_other kernel .del fd ∅ fails.first
      split
      · next heq =>
        rw [heq] at hother
        exact ⟨hother, fun kind => by cases kind <;> rfl⟩
      · next heq =>
        rw [heq] at hother
        split
        · exact ⟨hother, fun kind => rfl⟩
        · exact ⟨hother, fun kind => by cases kind <;> rfl⟩
    · exact ⟨fun _ _ => rfl, fun _ => rfl⟩
  · obtain h | ⟨error, h⟩ := watch_spec kernel fd w fails
    · rw [h]
      exact ⟨fun i hi => Function.update_of_ne hi _ _, fun kind => by cases kind <;> rfl⟩
    · rw [h]
      exact ⟨fun _ _ => rfl, fun _ => rfl⟩

theorem empty_congr {v : FdWaiters} (h : ∀ kind, v.slot kind = w.slot kind) : v.empty = w.empty := by
  have hread : v.read = w.read := h .read
  have hwrite : v.write = w.write := h .write
  rw [FdWaiters.empty, FdWaiters.empty, hread, hwrite]

end Update

namespace Registry

variable {g : Registry} {fd : ℤ} {w : FdWaiters} {fails : Fails}

/-! ## The entry that an update leaves -/

theorem putOrErase_other {i : ℤ} (hi : i ≠ fd) : (g.putOrErase fd w).fdWaiters i = g.fdWaiters i := by
  unfold putOrErase
  split
  · exact Function.update_of_ne hi _ _
  · exact Function.update_of_ne hi _ _

theorem putOrErase_self : (g.putOrErase fd w).fdWaiters fd = if w.empty then none else some w := by
  unfold putOrErase
  split
  · exact Function.update_self _ _ _
  · exact Function.update_self _ _ _

theorem putOrErase_kernel : (g.putOrErase fd w).kernel = g.kernel := by
  unfold putOrErase
  split <;> rfl

theorem settle_other {i : ℤ} (hi : i ≠ fd) : (g.settle fd w fails).fdWaiters i = g.fdWaiters i :=
  putOrErase_other hi

theorem settle_kernel : (g.settle fd w fails).kernel = (updateInterest g.kernel fd w fails).kernel :=
  putOrErase_kernel

/-- The entry that `settle` leaves has the given waiters. -/
theorem settle_self : (g.settle fd w fails).fdWaiters fd =
    if w.empty then none else some (updateInterest g.kernel fd w fails).waiters := by
  rw [settle, putOrErase_self, empty_congr (updateInterest_frame g.kernel fd w fails).2]

end Registry

end CCForge.Epoll
