import CCForge.Epoll.Places
import CCForge.Lib.Run

/-!
# The kernel watches every waiter

Between the sections, each descriptor with a waiter is in the kernel's table with at least
the events of its waiters. A failed update leaves the kernel's table as it was, and a section
only takes waiters out before an update whose failure it ignores.
-/

namespace CCForge.Epoll

namespace Registry

variable {g t : Registry} {fd : ℤ} {w v : FdWaiters} {record : Record} {fails : Fails}

/-! ## The invariant -/

/-- The kernel watches the waiters of an entry of the table. -/
structure Watched (g : Registry) (fd : ℤ) (w : FdWaiters) : Prop where
  waiting : w.empty = false
  registered : w.registered = true
  mask : ∃ mask, g.kernel fd = some mask ∧ w.events ⊆ mask

def AllWatched (g : Registry) : Prop := ∀ fd w, g.fdWaiters fd = some w → g.Watched fd w

theorem AllWatched.congr (h : g.AllWatched) (hw : t.fdWaiters = g.fdWaiters) (hk : t.kernel = g.kernel) :
    t.AllWatched := by
  intro fd w hfd
  rw [hw] at hfd
  obtain ⟨hwaiting, hregistered, hmask⟩ := h fd w hfd
  exact ⟨hwaiting, hregistered, by rwa [hk]⟩

/-- A section that changes one entry has only to care for that entry. -/
theorem AllWatched.of_entry (h : g.AllWatched) (fd : ℤ)
    (hw : ∀ i, i ≠ fd → t.fdWaiters i = g.fdWaiters i) (hk : ∀ i, i ≠ fd → t.kernel i = g.kernel i)
    (hfd : ∀ w, t.fdWaiters fd = some w → t.Watched fd w) : t.AllWatched := by
  intro i w hi
  by_cases he : i = fd
  · subst he
    exact hfd w hi
  · rw [hw i he] at hi
    obtain ⟨hwaiting, hregistered, mask, hmask, hsub⟩ := h i w hi
    exact ⟨hwaiting, hregistered, mask, (hk i he).trans hmask, hsub⟩

/-- An entry whose waiters the kernel watched keeps them watched. -/
theorem AllWatched.settle (h : ∀ i u, i ≠ fd → g.fdWaiters i = some u → g.Watched i u)
    (hold : w.empty = false → w.registered = true ∧ ∃ mask, g.kernel fd = some mask ∧ w.events ⊆ mask)
    (fails : Fails) : (g.settle fd w fails).AllWatched := by
  intro i u hi
  by_cases he : i = fd
  · subst he
    rw [settle_self] at hi
    split at hi
    · cases hi
    · next hempty =>
      have hnot := Bool.eq_false_iff.mpr hempty
      obtain ⟨hregistered, mask, hmask, hsub⟩ := hold hnot
      cases hi
      unfold updateInterest
      rw [if_neg hempty]
      obtain hnew | ⟨error, hsame⟩ := watch_spec g.kernel i w fails
      · rw [hnew]
        refine ⟨hnot, rfl, w.events, ?_, Finset.Subset.refl _⟩
        rw [settle_kernel, updateInterest, if_neg hempty, hnew]
        exact Function.update_self _ _ _
      · rw [hsame]
        refine ⟨hnot, hregistered, mask, ?_, hsub⟩
        rw [settle_kernel, updateInterest, if_neg hempty, hsame]
        exact hmask
  · rw [settle_other he] at hi
    obtain ⟨hwaiting, hregistered, mask, hmask, hsub⟩ := h i u he hi
    refine ⟨hwaiting, hregistered, mask, ?_, hsub⟩
    rw [settle_kernel]
    exact ((updateInterest_frame g.kernel fd w fails).1 i he).trans hmask

/-- An entry that loses waiters. -/
theorem AllWatched.shrink (h : g.AllWatched) (hw : g.fdWaiters fd = some w)
    (hv : ∀ kind, (v.slot kind).isSome = true → (w.slot kind).isSome = true)
    (hr : v.registered = w.registered) (hk : t.kernel = g.kernel) (ht : t.fdWaiters = g.fdWaiters)
    (fails : Fails) : (t.settle fd v fails).AllWatched := by
  have hall := h.congr ht hk
  refine AllWatched.settle (fun i u _ hi => hall i u hi) (fun _ => ?_) fails
  obtain ⟨-, hregistered, mask, hmask, hsub⟩ := h fd w hw
  exact ⟨hr.trans hregistered, mask, by rw [hk, hmask], (FdWaiters.events_subset hv).trans hsub⟩

theorem allWatched_initial (h : g.IsInitial) : g.AllWatched := by
  intro fd w hw
  rw [h] at hw
  cases hw

/-! ## The sections -/

theorem AllWatched.takeAll (h : g.AllWatched) (fd : ℤ) (completion : Completion) (fails : Fails) :
    (g.takeAll fd completion fails).1.AllWatched := by
  unfold Registry.takeAll
  split
  · exact h
  · refine h.of_entry fd (fun i hi => Function.update_of_ne hi _ _)
      (fun i hi => (updateInterest_frame g.kernel fd _ fails).1 i hi) fun u hu => ?_
    have hnone : (none : Option FdWaiters) = some u := (Function.update_self fd _ _).symm.trans hu
    cases hnone

theorem AllWatched.takeAllOf (h : g.AllWatched) (completion : Completion) (fails : ℤ → Fails)
    (fds : List ℤ) : (Registry.takeAllOf completion fails g fds).1.AllWatched := by
  induction fds generalizing g with
  | nil => exact h
  | cons fd fds ih => exact ih (h.takeAll fd completion (fails fd))

theorem AllWatched.takeReady (h : g.AllWatched) (fd : ℤ) (mask : Mask) (fails : Fails) :
    (g.takeReady fd mask fails).1.AllWatched := by
  unfold Registry.takeReady
  split
  · exact h
  · next w hw =>
    dsimp only
    have hshrink := fun n v hv hr =>
      h.shrink (t := { g with pending := n }) (v := v) hw hv hr rfl rfl fails
    refine hshrink _ _ ?_ ?_
    · intro kind
      cases kind <;> split_ifs <;> simp [FdWaiters.slot]
    · split_ifs <;> rfl

theorem AllWatched.takeEvents (h : g.AllWatched) (events : List Polled) :
    (g.takeEvents events).1.AllWatched := by
  induction events generalizing g with
  | nil => exact h
  | cons event events ih =>
    unfold Registry.takeEvents
    dsimp only
    split
    · exact ih h
    · exact ih (h.takeReady event.fd event.mask event.fails)

theorem isSome_of_setSlot_none {kind other : Readiness}
    (h : ((w.setSlot kind none).slot other).isSome = true) : (w.slot other).isSome = true := by
  by_cases he : other = kind
  · rw [he, FdWaiters.slot_setSlot] at h
    cases h
  · rwa [FdWaiters.slot_setSlot_other _ _ he] at h

theorem AllWatched.extract (h : g.AllWatched) (target : Record) (reserveDelivery : Bool) (fails : Fails) :
    (g.extract target reserveDelivery fails).1.AllWatched := by
  unfold Registry.extract
  split
  · exact h
  · next w hw =>
    split
    · have hshrink : AllWatched ({ g with pending := g.pending - 1 }.settle target.fd
          (w.setSlot target.kind none) fails) :=
        h.shrink (t := { g with pending := g.pending - 1 }) hw (fun _ => isSome_of_setSlot_none)
          (FdWaiters.registered_setSlot _ _ _) rfl rfl fails
      exact hshrink.congr rfl rfl
    · exact h

theorem tryEmplace_spec (g : Registry) (fd : ℤ) :
    (g.fdWaiters fd = some (g.tryEmplace fd).2 ∧ (g.tryEmplace fd).1 = g) ∨
    (g.fdWaiters fd = none ∧ (g.tryEmplace fd).2 = {} ∧ (g.tryEmplace fd).1 =
      { g with fdWaiters := Function.update g.fdWaiters fd (some {}), keys := fd :: g.keys }) := by
  unfold tryEmplace
  split
  · next hw => exact .inl ⟨hw, rfl⟩
  · next hw => exact .inr ⟨hw, rfl, rfl⟩

/-- What the section of `start` is about when it comes to the slot. -/
theorem tryEmplace_watched (h : g.AllWatched) (fd : ℤ) :
    (∀ i u, i ≠ fd → (g.tryEmplace fd).1.fdWaiters i = some u → (g.tryEmplace fd).1.Watched i u) ∧
    ((g.tryEmplace fd).2.empty = false → (g.tryEmplace fd).1.Watched fd (g.tryEmplace fd).2) := by
  obtain ⟨hw, hg⟩ | ⟨hw, hempty, hg⟩ := tryEmplace_spec g fd
  · rw [hg]
    exact ⟨fun i u _ hi => h i u hi, fun _ => h fd _ hw⟩
  · rw [hg, hempty]
    refine ⟨fun i u hi hu => ?_, fun hne => ?_⟩
    · have hold : g.fdWaiters i = some u := (Function.update_of_ne hi _ _).symm.trans hu
      obtain ⟨hwaiting, hregistered, hmask⟩ := h i u hold
      exact ⟨hwaiting, hregistered, hmask⟩
    · cases hne

theorem AllWatched.startLocked (h : g.AllWatched) (record : Record) (fails again : Fails) :
    (g.startLocked record fails again).1.AllWatched := by
  unfold Registry.startLocked
  split
  · exact h
  split
  · exact h
  dsimp only
  have hspec := tryEmplace_spec g record.fd
  obtain ⟨hothers, hown⟩ := tryEmplace_watched h record.fd
  generalize (g.tryEmplace record.fd).1 = e at *
  generalize (g.tryEmplace record.fd).2 = w at *
  split
  · next other hslot =>
    -- An occupied slot means that the entry was there before.
    obtain ⟨-, rfl⟩ | ⟨-, rfl, -⟩ := hspec
    · exact h
    · cases hk : record.kind <;> rw [hk] at hslot <;> cases hslot
  · next hslot =>
    have hnot : (w.setSlot record.kind (some record)).empty = false :=
      FdWaiters.empty_eq_false_iff.mpr ⟨record.kind, record, FdWaiters.slot_setSlot _ _ _⟩
    have hif : updateInterest e.kernel record.fd (w.setSlot record.kind (some record)) fails =
        watch e.kernel record.fd (w.setSlot record.kind (some record)) fails := by
      rw [updateInterest, if_neg (Bool.eq_false_iff.mp hnot)]
    rw [hif]
    obtain hnew | ⟨error, hold⟩ := watch_spec e.kernel record.fd (w.setSlot record.kind (some record)) fails
    · rw [hnew]
      dsimp only
      intro i u hu
      by_cases he : i = record.fd
      · subst he
        have hu' := (Function.update_self record.fd _ _).symm.trans hu
        cases hu'
        exact ⟨hnot, rfl, _, Function.update_self _ _ _, Finset.Subset.refl _⟩
      · have hu' : e.fdWaiters i = some u := (Function.update_of_ne he _ _).symm.trans hu
        obtain ⟨hwaiting, hregistered, mask, hmask, hsub⟩ := hothers i u he hu'
        exact ⟨hwaiting, hregistered, mask, (Function.update_of_ne he _ _).trans hmask, hsub⟩
    · rw [hold]
      dsimp only
      refine AllWatched.settle (fun i u he hu => ?_) (fun hempty => ?_) again
      · obtain ⟨hwaiting, hregistered, hmask⟩ := hothers i u he hu
        exact ⟨hwaiting, hregistered, hmask⟩
      · have hback : ∀ kind, (((w.setSlot record.kind (some record)).setSlot record.kind none).slot kind).isSome
            = true → (w.slot kind).isSome = true := by
          intro kind hk
          by_cases he : kind = record.kind
          · rw [he, FdWaiters.slot_setSlot] at hk
            cases hk
          · rwa [FdWaiters.slot_setSlot_other _ _ he, FdWaiters.slot_setSlot_other _ _ he] at hk
        have hwait : w.empty = false := by
          obtain ⟨kind, r, hr⟩ := FdWaiters.empty_eq_false_iff.mp hempty
          have hsome := hback kind (by rw [hr]; rfl)
          obtain ⟨r', hr'⟩ := Option.isSome_iff_exists.mp hsome
          exact FdWaiters.empty_eq_false_iff.mpr ⟨kind, r', hr'⟩
        obtain ⟨-, hregistered, mask, hmask, hsub⟩ := hown hwait
        refine ⟨?_, mask, hmask, (FdWaiters.events_subset hback).trans hsub⟩
        rw [FdWaiters.registered_setSlot, FdWaiters.registered_setSlot]
        exact hregistered

theorem AllWatched.start (h : g.AllWatched) (record : Record) (fails again : Fails) :
    (g.start record fails again).1.AllWatched :=
  (h.startLocked record fails again).congr rfl rfl

theorem AllWatched.cancel (h : g.AllWatched) (fd : ℤ) (fails : Fails) :
    (g.cancel fd fails).1.AllWatched :=
  (h.takeAll fd .stopped fails).congr rfl rfl

theorem AllWatched.requestStop (h : g.AllWatched) (fails : ℤ → Fails) :
    (g.requestStop fails).1.AllWatched := by
  have hstopped : ({ g with stopped := true } : Registry).AllWatched := h.congr rfl rfl
  exact (hstopped.takeAllOf .stopped fails g.keys).congr rfl rfl

theorem AllWatched.completeAllWithError (h : g.AllWatched) (error : ℕ) (fails : ℤ → Fails) :
    (g.completeAllWithError error fails).1.AllWatched := by
  have hstopped : ({ g with stopped := true } : Registry).AllWatched := h.congr rfl rfl
  exact (hstopped.takeAllOf (.error { code := error, what := "epoll_wait" }) fails g.keys).congr rfl rfl

theorem AllWatched.poll (h : g.AllWatched) (events : List Polled) : (g.poll events).1.AllWatched :=
  (h.takeEvents events).congr rfl rfl

/-! ## Runs of sections -/

/-- A section under the mutex, with what its calls of `epoll_ctl` fail with. Between the sections,
the owner of a descriptor may close it, and the table may come to visit its entries in another
order. -/
inductive Section where
  | start (record : Record) (fails again : Fails)
  | cancel (fd : ℤ) (fails : Fails)
  | cancelRecord (target : Record) (fails : Fails)
  | discardRecord (target : Record) (fails : Fails)
  | poll (events : List Polled)
  | requestStop (fails : ℤ → Fails)
  | completeAllWithError (error : ℕ) (fails : ℤ → Fails)
  | close
  | finishDeliveries (count : ℕ)
  | ownerCloses (fd : ℤ)
  | reorder (keys : List ℤ)

def sectionStep (g : Registry) : Section → Option Registry
  | .start record fails again => some (g.start record fails again).1
  | .cancel fd fails => some (g.cancel fd fails).1
  | .cancelRecord target fails => some (g.extract target true fails).1
  | .discardRecord target fails => some (g.extract target false fails).1
  | .poll events => some (g.poll events).1
  | .requestStop fails => some (g.requestStop fails).1
  | .completeAllWithError error fails => some (g.completeAllWithError error fails).1
  | .close => some g.close
  | .finishDeliveries count => some (g.finishDeliveries count)
  | .ownerCloses fd =>
    if g.resident fd .read = none ∧ g.resident fd .write = none then
      some { g with kernel := Function.update g.kernel fd none }
    else none
  | .reorder keys => if keys.Perm g.keys then some { g with keys := keys } else none

/-- A closed descriptor has no entry, since an entry has a waiter. -/
theorem AllWatched.ownerCloses (h : g.AllWatched)
    (hfree : g.resident fd .read = none ∧ g.resident fd .write = none) :
    ({ g with kernel := Function.update g.kernel fd none } : Registry).AllWatched := by
  refine h.of_entry fd (fun _ _ => rfl) (fun i hi => Function.update_of_ne hi _ _) fun w hfd => ?_
  have hw : g.fdWaiters fd = some w := hfd
  obtain ⟨kind, record, hr⟩ := FdWaiters.empty_eq_false_iff.mp (h fd w hw).waiting
  rw [resident_of_entry hw, resident_of_entry hw] at hfree
  cases kind with
  | read => simp [hfree.1] at hr
  | write => simp [hfree.2] at hr

theorem AllWatched.step {a : Section} (h : g.AllWatched) (hstep : g.sectionStep a = some t) :
    t.AllWatched := by
  cases a with
  | start record fails again =>
    cases hstep
    exact h.start record fails again
  | cancel fd fails =>
    cases hstep
    exact h.cancel fd fails
  | cancelRecord target fails =>
    cases hstep
    exact h.extract target true fails
  | discardRecord target fails =>
    cases hstep
    exact h.extract target false fails
  | poll events =>
    cases hstep
    exact h.poll events
  | requestStop fails =>
    cases hstep
    exact h.requestStop fails
  | completeAllWithError error fails =>
    cases hstep
    exact h.completeAllWithError error fails
  | close =>
    cases hstep
    exact h.congr rfl rfl
  | finishDeliveries count =>
    cases hstep
    exact h.congr rfl rfl
  | ownerCloses fd =>
    simp only [sectionStep, Option.ite_none_right_eq_some, Option.some.injEq] at hstep
    obtain ⟨hfree, rfl⟩ := hstep
    exact h.ownerCloses hfree
  | reorder keys =>
    simp only [sectionStep, Option.ite_none_right_eq_some, Option.some.injEq] at hstep
    obtain ⟨-, rfl⟩ := hstep
    exact h.congr rfl rfl

theorem Sound.step {a : Section} (h : g.Sound) (hstep : g.sectionStep a = some t) : t.Sound := by
  have hextract : ∀ target reserveDelivery fails, (g.extract target reserveDelivery fails).1.Sound := by
    intro target reserveDelivery fails
    obtain ⟨-, -, htakes⟩ | ⟨-, hsame⟩ := extract_spec h target reserveDelivery fails
    · exact htakes.sound
    · rw [hsame]
      exact h
  cases a with
  | start record fails again =>
    cases hstep
    have hlocked : (g.startLocked record fails again).1.Sound := by
      obtain ⟨-, hputs⟩ | ⟨_, -, hkeeps, -⟩ := startLocked_spec h record fails again
      · exact hputs.sound
      · exact hkeeps.sound
    exact hlocked.congr rfl rfl rfl
  | cancel fd fails =>
    cases hstep
    exact (takes_cancel h fd fails).sound
  | cancelRecord target fails =>
    cases hstep
    exact hextract target true fails
  | discardRecord target fails =>
    cases hstep
    exact hextract target false fails
  | poll events =>
    cases hstep
    exact (takes_poll h events).sound
  | requestStop fails =>
    cases hstep
    exact (takes_requestStop h fails).sound
  | completeAllWithError error fails =>
    cases hstep
    exact (takes_completeAllWithError h error fails).sound
  | close =>
    cases hstep
    exact h.close
  | finishDeliveries count =>
    cases hstep
    exact h.finish count
  | ownerCloses fd =>
    simp only [sectionStep, Option.ite_none_right_eq_some, Option.some.injEq] at hstep
    obtain ⟨-, rfl⟩ := hstep
    exact h.congr rfl rfl rfl
  | reorder keys =>
    simp only [sectionStep, Option.ite_none_right_eq_some, Option.some.injEq] at hstep
    obtain ⟨hperm, rfl⟩ := hstep
    exact h.reorder hperm

theorem reachable_watched (h : Reachable sectionStep IsInitial g) : g.AllWatched ∧ g.Sound := by
  obtain ⟨s, hs, as, has⟩ := h
  exact run_preserves (P := fun g => g.AllWatched ∧ g.Sound)
    (fun _ _ _ hg hstep => ⟨hg.1.step hstep, hg.2.step hstep⟩)
    ⟨allWatched_initial hs, sound_initial hs⟩ has

/-- The kernel watches the descriptor, with the events of its waiters. -/
def Watches (g : Registry) (fd : ℤ) : Prop :=
  ∃ w mask, g.fdWaiters fd = some w ∧ g.kernel fd = some mask ∧ w.events ⊆ mask

theorem AllWatched.watches (h : g.AllWatched) {kind : Readiness}
    (hr : g.resident fd kind = some record) : g.Watches fd := by
  obtain ⟨w, hw, -⟩ := Option.bind_eq_some_iff.mp hr
  obtain ⟨-, -, mask, hmask, hsub⟩ := h fd w hw
  exact ⟨w, mask, hw, hmask, hsub⟩

/-- **The kernel watches each descriptor with a resident waiter**, and a `start` that reports an
error of `epoll_ctl` leaves all the others resident and watched. -/
theorem waiters_watched (h : Reachable sectionStep IsInitial g) :
    (∀ fd kind record, g.resident fd kind = some record → g.Watches fd) ∧
    ∀ record fails again error,
      (g.start record fails again).2 = ([(record, .error (addFailed error))], false) →
      ∀ fd kind other, g.resident fd kind = some other →
        (g.start record fails again).1.resident fd kind = some other ∧
          (g.start record fails again).1.Watches fd := by
  obtain ⟨hwatched, hsound⟩ := reachable_watched h
  refine ⟨fun fd kind record hr => hwatched.watches hr, ?_⟩
  intro record fails again error hreport fd kind other hother
  have hkept : (g.start record fails again).1.resident fd kind = some other := by
    obtain ⟨hpending, -⟩ | ⟨_, -, hkeeps, -⟩ := startLocked_spec hsound record fails again
    · have hactions : (g.startLocked record fails again).2.1 = [(record, .error (addFailed error))] :=
        congrArg Prod.fst hreport
      rw [hpending] at hactions
      cases hactions
    · exact (hkeeps.resident fd kind).trans hother
  exact ⟨hkept, (hwatched.start record fails again).watches hkept⟩

/-- A descriptor with a reader, and a writer whose registration the kernel refuses. -/
theorem waiters_watched_after_refusal :
    ∃ g, Reachable sectionStep IsInitial g ∧ g.Watches 5 ∧
      (g.start ⟨1, 5, .write⟩ { first := some 12 } {}).1.Watches 5 := by
  let initial : Registry := { wake := 3, kernel := Function.update (fun _ => none) 3 (some {.pollIn}) }
  let g := (initial.start ⟨0, 5, .read⟩ {} {}).1
  have h : Reachable sectionStep IsInitial g :=
    ⟨initial, rfl, [.start ⟨0, 5, .read⟩ {} {}], rfl⟩
  have hr : g.resident 5 .read = some ⟨0, 5, .read⟩ := by decide
  refine ⟨g, h, (waiters_watched h).1 5 .read _ hr, ?_⟩
  exact ((waiters_watched h).2 ⟨1, 5, .write⟩ { first := some 12 } {} 12 (by decide) 5 .read _ hr).2

end Registry

end CCForge.Epoll
