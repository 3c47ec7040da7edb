import CCForge.Epoll.Interest
import CCForge.Lib.Census

/-!
# The places of the records

A record is resident in the slot of its own descriptor and readiness. Each section takes some
records out of their slots, and `start` puts one in. The counter `pending` counts the occupied
slots, and an entry without a waiter is erased before the section ends.
-/

namespace CCForge.Epoll

namespace FdWaiters

variable {w v : FdWaiters}

theorem occupied_of_empty (h : w.empty = true) : w.occupied = 0 := by
  simp only [empty, Bool.and_eq_true, Option.isNone_iff_eq_none] at h
  simp [occupied, h.1, h.2]

theorem slot_of_empty (h : w.empty = true) (kind : Readiness) : w.slot kind = none := by
  simp only [empty, Bool.and_eq_true, Option.isNone_iff_eq_none] at h
  cases kind
  · exact h.1
  · exact h.2

theorem occupied_congr (h : ∀ kind, v.slot kind = w.slot kind) : v.occupied = w.occupied := by
  have hread : v.read = w.read := h .read
  have hwrite : v.write = w.write := h .write
  rw [occupied, occupied, hread, hwrite]

/-- Setting a free slot. -/
theorem occupied_setSlot_some {kind : Readiness} (record : Record) (h : w.slot kind = none) :
    (w.setSlot kind (some record)).occupied = w.occupied + 1 := by
  cases kind
  · have hread : w.read = none := h
    simp [occupied, setSlot, hread, Nat.add_comm]
  · have hwrite : w.write = none := h
    simp [occupied, setSlot, hwrite]

end FdWaiters

namespace FdWaiters

variable {w v : FdWaiters} (taken : Readiness → Prop) [DecidablePred taken]

/-- The records in the slots that are taken. -/
def takenOut (w : FdWaiters) : List Record :=
  (if taken .read then w.read.toList else []) ++ (if taken .write then w.write.toList else [])

variable {taken}

theorem mem_takenOut {record : Record} :
    record ∈ w.takenOut taken ↔ ∃ kind, taken kind ∧ w.slot kind = some record := by
  rw [takenOut, List.mem_append]
  constructor
  · rintro (hr | hr)
    · split at hr
      · next ht => exact ⟨.read, ht, Option.mem_toList.mp hr⟩
      · cases hr
    · split at hr
      · next ht => exact ⟨.write, ht, Option.mem_toList.mp hr⟩
      · cases hr
  · rintro ⟨kind, ht, hr⟩
    cases kind with
    | read =>
      rw [if_pos ht]
      exact .inl (Option.mem_toList.mpr hr)
    | write =>
      rw [if_pos ht]
      exact .inr (Option.mem_toList.mpr hr)

theorem nodup_takenOut (hplace : ∀ kind record, w.slot kind = some record → record.kind = kind) :
    (w.takenOut taken).Nodup := by
  have honce : ∀ slot : Option Record, slot.toList.Nodup := fun slot => by cases slot <;> simp
  refine List.nodup_append.mpr ⟨?_, ?_, ?_⟩
  · split
    · exact honce _
    · exact List.nodup_nil
  · split
    · exact honce _
    · exact List.nodup_nil
  · rintro r hr r' hr' rfl
    split at hr
    · split at hr'
      · have hread := hplace .read r (Option.mem_toList.mp hr)
        have hwrite := hplace .write r (Option.mem_toList.mp hr')
        rw [hread] at hwrite
        cases hwrite
      · cases hr'
    · cases hr

theorem length_takenOut (hv : ∀ kind, v.slot kind = if taken kind then none else w.slot kind) :
    (w.takenOut taken).length + v.occupied = w.occupied := by
  have hread : v.read = if taken .read then none else w.read := hv .read
  have hwrite : v.write = if taken .write then none else w.write := hv .write
  rw [takenOut, occupied, occupied, hread, hwrite, List.length_append]
  split <;> split <;> simp
  omega

end FdWaiters

def occupiedSlots : Option FdWaiters → ℕ
  | none => 0
  | some w => w.occupied

@[simp] theorem occupiedSlots_none : occupiedSlots none = 0 := rfl

@[simp] theorem occupiedSlots_some (w : FdWaiters) : occupiedSlots (some w) = w.occupied := rfl

namespace Registry

variable {g t u : Registry} {fd : ℤ} {w v : FdWaiters} {record : Record} {fails : Fails}
  {out rest : List Record}

/-- What holds within a section as well. -/
structure Counted (g : Registry) : Prop where
  nodup : g.keys.Nodup
  mem_keys : ∀ fd, fd ∈ g.keys ↔ (g.fdWaiters fd).isSome = true
  place : ∀ fd kind record, g.resident fd kind = some record → record.fd = fd ∧ record.kind = kind
  pending : g.pending = census occupiedSlots g.fdWaiters g.keys

/-- What holds between the sections. -/
structure Sound (g : Registry) : Prop extends Counted g where
  waiting : ∀ fd w, g.fdWaiters fd = some w → w.empty = false

theorem resident_of_entry (h : g.fdWaiters fd = some w) (kind : Readiness) :
    g.resident fd kind = w.slot kind := by
  rw [resident, h]
  rfl

theorem resident_congr (h : t.fdWaiters = g.fdWaiters) (fd : ℤ) (kind : Readiness) :
    t.resident fd kind = g.resident fd kind := by
  rw [resident, resident, h]

theorem stopped_putOrErase : (g.putOrErase fd w).stopped = g.stopped := by
  unfold putOrErase
  split <;> rfl

theorem resident_putOrErase (g : Registry) (fd : ℤ) (w : FdWaiters) (i : ℤ) (kind : Readiness) :
    (g.putOrErase fd w).resident i kind = if i = fd then w.slot kind else g.resident i kind := by
  by_cases hi : i = fd
  · subst hi
    rw [if_pos rfl, resident, putOrErase_self]
    split
    · next hempty => exact (FdWaiters.slot_of_empty hempty kind).symm
    · rfl
  · rw [if_neg hi, resident, putOrErase_other hi, resident]

/-- An entry changes, and the counter with it. -/
theorem Counted.putOrErase (h : g.Counted) (hw : g.fdWaiters fd = some w)
    (hplace : ∀ kind record, v.slot kind = some record → record.fd = fd ∧ record.kind = kind)
    (ht : t.fdWaiters = g.fdWaiters) (hk : t.keys = g.keys)
    (hp : t.pending + w.occupied = g.pending + v.occupied) : (t.putOrErase fd v).Counted := by
  have hmem : fd ∈ g.keys := (h.mem_keys fd).mpr (by rw [hw]; rfl)
  have hcount := h.pending
  have hupdate := fun x => census_update (g := occupiedSlots) (f := g.fdWaiters) (x := x) h.nodup hmem
  have hold : occupiedSlots (g.fdWaiters fd) = w.occupied := by rw [hw, occupiedSlots_some]
  refine ⟨?_, ?_, ?_, ?_⟩
  · unfold Registry.putOrErase
    split
    · exact (hk ▸ h.nodup).erase fd
    · exact hk ▸ h.nodup
  · intro i
    by_cases hi : i = fd
    · subst hi
      rw [putOrErase_self]
      unfold Registry.putOrErase
      split
      · simp [erase, hk, h.nodup.mem_erase_iff]
      · simpa [put, hk] using hmem
    · rw [putOrErase_other hi, ht]
      unfold Registry.putOrErase
      split
      · simp [erase, hk, h.nodup.mem_erase_iff, hi, h.mem_keys]
      · simp [put, hk, h.mem_keys]
  · intro i kind record hr
    rw [resident_putOrErase] at hr
    split at hr
    · next hi => exact hi ▸ hplace kind record hr
    · rw [resident_congr ht] at hr
      exact h.place i kind record hr
  · unfold Registry.putOrErase
    split
    · next hempty =>
      have hzero := FdWaiters.occupied_of_empty hempty
      have herase := census_erase (g := occupiedSlots) (f := Function.update g.fdWaiters fd none) hmem
      have hnone := hupdate none
      rw [Function.update_self] at herase
      rw [occupiedSlots_none] at herase hnone
      rw [hold] at hnone
      simp only [erase, ht, hk]
      omega
    · have hsome := hupdate (some v)
      rw [occupiedSlots_some, hold] at hsome
      simp only [put, ht, hk]
      omega

/-- With all other entries waiting, an entry without a waiter does not stay. -/
theorem Sound.putOrErase (h : g.Counted) (hwait : ∀ i u, i ≠ fd → g.fdWaiters i = some u → u.empty = false)
    (hw : g.fdWaiters fd = some w)
    (hplace : ∀ kind record, v.slot kind = some record → record.fd = fd ∧ record.kind = kind)
    (ht : t.fdWaiters = g.fdWaiters) (hk : t.keys = g.keys)
    (hp : t.pending + w.occupied = g.pending + v.occupied) : (t.putOrErase fd v).Sound := by
  refine ⟨h.putOrErase hw hplace ht hk hp, fun i u hi => ?_⟩
  by_cases he : i = fd
  · subst he
    rw [putOrErase_self] at hi
    split at hi
    · cases hi
    · next hne =>
      cases hi
      exact Bool.eq_false_iff.mpr hne
  · rw [putOrErase_other he, ht] at hi
    exact hwait i u he hi

theorem Sound.congr (h : g.Sound) (hw : t.fdWaiters = g.fdWaiters) (hk : t.keys = g.keys)
    (hp : t.pending = g.pending) : t.Sound := by
  refine ⟨⟨hk ▸ h.nodup, fun fd => ?_, fun fd kind record hr => ?_, ?_⟩, fun fd w => ?_⟩
  · rw [hk, hw]
    exact h.mem_keys fd
  · rw [resident_congr hw] at hr
    exact h.place fd kind record hr
  · rw [hp, hw, hk]
    exact h.pending
  · rw [hw]
    exact h.waiting fd w

theorem sound_initial (h : g.IsInitial) : g.Sound := by
  rw [h]
  refine ⟨⟨List.nodup_nil, fun _ => by simp, fun _ _ _ hr => ?_, rfl⟩, fun _ _ hw => ?_⟩
  · cases hr
  · cases hw

/-- The table may visit its entries in any order. -/
theorem Sound.reorder (h : g.Sound) {keys : List ℤ} (hp : keys.Perm g.keys) :
    ({ g with keys := keys } : Registry).Sound where
  nodup := hp.nodup_iff.mpr h.nodup
  mem_keys fd := hp.mem_iff.trans (h.mem_keys fd)
  place := h.place
  pending := h.pending.trans (hp.map _).sum_eq.symm
  waiting := h.waiting

/-! ## Taking records out -/

/-- `t` is `g` without the records in `out`, each of which was in its slot. -/
structure Takes (g t : Registry) (out : List Record) : Prop where
  sound : t.Sound
  stopped : t.stopped = g.stopped
  resident : ∀ fd kind record, t.resident fd kind = some record ↔
    g.resident fd kind = some record ∧ record ∉ out
  nodup : out.Nodup
  taken : ∀ record ∈ out, g.resident record.fd record.kind = some record

theorem Takes.nothing (h : g.Sound) : g.Takes g [] where
  sound := h
  stopped := rfl
  resident := by simp
  nodup := List.nodup_nil
  taken := by simp

theorem Takes.congr (h : g.Takes t out) (hw : u.fdWaiters = t.fdWaiters) (hk : u.keys = t.keys)
    (hp : u.pending = t.pending) (hs : u.stopped = t.stopped) : g.Takes u out :=
  { h with
    sound := h.sound.congr hw hk hp
    stopped := hs.trans h.stopped
    resident := fun fd kind record => by
      rw [resident_congr hw]
      exact h.resident fd kind record }

theorem Takes.trans (h : g.Takes t out) (h' : t.Takes u rest) : g.Takes u (out ++ rest) where
  sound := h'.sound
  stopped := h'.stopped.trans h.stopped
  resident fd kind record := by
    rw [h'.resident, h.resident, List.mem_append]
    tauto
  nodup := by
    refine List.nodup_append.mpr ⟨h.nodup, h'.nodup, ?_⟩
    rintro r hr r' hr' rfl
    exact ((h.resident _ _ _).mp (h'.taken r hr')).2 hr
  taken record hr := by
    rcases List.mem_append.mp hr with hr | hr
    · exact h.taken record hr
    · exact ((h.resident _ _ _).mp (h'.taken record hr)).1

/-- An update of an entry after some of its slots were emptied. -/
theorem Takes.putOrErase {taken : Readiness → Prop} [DecidablePred taken] (h : g.Sound)
    (hw : g.fdWaiters fd = some w)
    (hv : ∀ kind, v.slot kind = if taken kind then none else w.slot kind)
    (ht : t.fdWaiters = g.fdWaiters) (hk : t.keys = g.keys)
    (hp : t.pending = g.pending - (w.takenOut taken).length) (hs : t.stopped = g.stopped) :
    g.Takes (t.putOrErase fd v) (w.takenOut taken) := by
  have hslot := resident_of_entry hw
  have hplace : ∀ kind record, w.slot kind = some record → record.fd = fd ∧ record.kind = kind :=
    fun kind record hr => h.place fd kind record ((hslot kind).trans hr)
  have hkept : ∀ kind record, v.slot kind = some record ↔
      w.slot kind = some record ∧ record ∉ w.takenOut taken := by
    intro kind record
    rw [hv, FdWaiters.mem_takenOut]
    constructor
    · intro hr
      split at hr
      · cases hr
      · next hnot =>
        refine ⟨hr, ?_⟩
        rintro ⟨other, htaken, hother⟩
        obtain rfl := (hplace kind record hr).2
        obtain rfl := (hplace other record hother).2
        exact hnot htaken
    · rintro ⟨hr, hnot⟩
      rw [if_neg (fun htaken => hnot ⟨kind, htaken, hr⟩)]
      exact hr
  have hlength := FdWaiters.length_takenOut hv
  have hle : w.occupied ≤ g.pending := by
    have hmem : fd ∈ g.keys := (h.mem_keys fd).mpr (by rw [hw]; rfl)
    have herase := census_erase (g := occupiedSlots) (f := g.fdWaiters) hmem
    have hcount := h.pending
    rw [hw, occupiedSlots_some] at herase
    omega
  refine ⟨?_, stopped_putOrErase.trans hs, ?_,
    FdWaiters.nodup_takenOut fun kind record hr => (hplace kind record hr).2, ?_⟩
  · refine Sound.putOrErase h.toCounted (fun i u _ => h.waiting i u) hw ?_ ht hk (by omega)
    exact fun kind record hr => hplace kind record ((hkept kind record).mp hr).1
  · intro i kind record
    rw [resident_putOrErase]
    split
    · next hi =>
      rw [hi, hslot]
      exact hkept kind record
    · next hi =>
      rw [resident_congr ht]
      constructor
      · intro hr
        refine ⟨hr, fun hmem => ?_⟩
        obtain ⟨other, -, hother⟩ := FdWaiters.mem_takenOut.mp hmem
        exact hi ((h.place i kind record hr).1.symm.trans (hplace other record hother).1)
      · exact And.left
  · intro record hr
    obtain ⟨kind, -, hkind⟩ := FdWaiters.mem_takenOut.mp hr
    obtain ⟨hfd, rfl⟩ := hplace kind record hkind
    rw [hfd, hslot, hkind]

theorem Takes.settle (taken : Readiness → Prop) [DecidablePred taken] (h : g.Sound)
    (hw : g.fdWaiters fd = some w)
    (hv : ∀ kind, v.slot kind = if taken kind then none else w.slot kind) (fails : Fails)
    (ht : t.fdWaiters = g.fdWaiters) (hk : t.keys = g.keys)
    (hp : t.pending = g.pending - (w.takenOut taken).length) (hs : t.stopped = g.stopped) :
    g.Takes (t.settle fd v fails) (w.takenOut taken) :=
  Takes.putOrErase (t := { t with kernel := (updateInterest t.kernel fd v fails).kernel }) h hw
    (fun kind => ((updateInterest_frame t.kernel fd v fails).2 kind).trans (hv kind)) ht hk hp hs

/-! ## The sections -/

theorem map_takeOne (slot : Option Record) (completion : Completion) :
    (takeOne slot completion).map Prod.fst = slot.toList := by
  cases slot <;> rfl

theorem takes_takeAll (h : g.Sound) (fd : ℤ) (completion : Completion) (fails : Fails) :
    g.Takes (g.takeAll fd completion fails).1 ((g.takeAll fd completion fails).2.map Prod.fst) := by
  unfold takeAll
  split
  · exact .nothing h
  · next w hw =>
    have hout : w.takenOut (fun _ => True) =
        (takeOne w.read completion ++ takeOne w.write completion).map Prod.fst := by
      rw [List.map_append, map_takeOne, map_takeOne]
      rfl
    have hkeep : ∀ t : Registry, t.erase fd = t.putOrErase fd {} := fun _ => rfl
    dsimp only
    rw [hkeep, ← hout]
    refine Takes.putOrErase h hw (fun kind => ?_) rfl rfl ?_ rfl
    · cases kind <;> rfl
    · rw [hout, List.length_map]

theorem takes_takeAllOf (h : g.Sound) (completion : Completion) (fails : ℤ → Fails) (fds : List ℤ) :
    g.Takes (takeAllOf completion fails g fds).1
      ((takeAllOf completion fails g fds).2.map Prod.fst) := by
  induction fds generalizing g with
  | nil => exact .nothing h
  | cons fd fds ih =>
    have hone := takes_takeAll h fd completion (fails fd)
    have hrest := hone.trans (ih hone.sound)
    rw [← List.map_append] at hrest
    exact hrest

/-- The waiters that an event of the mask makes ready. -/
def readyFor (mask : Mask) : Readiness → Prop
  | .read => .pollIn ∈ mask ∨ .pollErr ∈ mask ∨ .pollHup ∈ mask ∨ .pollRdhup ∈ mask
  | .write => .pollOut ∈ mask ∨ .pollErr ∈ mask ∨ .pollHup ∈ mask

instance (mask : Mask) : DecidablePred (readyFor mask)
  | .read => inferInstanceAs (Decidable (_ ∨ _ ∨ _ ∨ _))
  | .write => inferInstanceAs (Decidable (_ ∨ _ ∨ _))

theorem takes_takeReady (h : g.Sound) (fd : ℤ) (mask : Mask) (fails : Fails) :
    g.Takes (g.takeReady fd mask fails).1 ((g.takeReady fd mask fails).2.map Prod.fst) := by
  unfold takeReady
  split
  · exact .nothing h
  · next w hw =>
    have hone : ∀ (p : Prop) [Decidable p] (slot : Option Record),
        (if p then takeOne slot .value else []).map Prod.fst = if p then slot.toList else [] := by
      intro p _ slot
      split
      · exact map_takeOne slot .value
      · rfl
    dsimp only
    rw [List.map_append, hone, hone]
    refine Takes.settle (readyFor mask) h hw (fun kind => ?_) fails rfl rfl ?_ rfl
    · cases kind with
      | read =>
        split_ifs <;> first | rfl | exact absurd (by assumption : readyFor mask .read) (by assumption)
      | write =>
        split_ifs <;> first | rfl | exact absurd (by assumption : readyFor mask .write) (by assumption)
    · rw [← List.length_map Prod.fst, List.map_append, hone, hone]
      rfl

theorem takes_takeEvents (h : g.Sound) (events : List Polled) :
    g.Takes (g.takeEvents events).1 ((g.takeEvents events).2.map Prod.fst) := by
  induction events generalizing g with
  | nil => exact .nothing h
  | cons event events ih =>
    unfold takeEvents
    dsimp only
    rw [List.map_append]
    split
    · exact ih h
    · have hone := takes_takeReady h event.fd event.mask event.fails
      exact hone.trans (ih hone.sound)

/-- What was resident is taken out, and what was not changes nothing. -/
theorem extract_spec (h : g.Sound) (target : Record) (reserveDelivery : Bool) (fails : Fails) :
    (g.resident target.fd target.kind = some target ∧
      (g.extract target reserveDelivery fails).2 = true ∧
      g.Takes (g.extract target reserveDelivery fails).1 [target]) ∨
    (g.resident target.fd target.kind ≠ some target ∧
      g.extract target reserveDelivery fails = (g, false)) := by
  unfold extract
  split
  · next hw => exact .inr ⟨by simp [resident, hw], rfl⟩
  · next w hw =>
    rw [resident_of_entry hw]
    by_cases hslot : w.slot target.kind = some target
    · rw [if_pos hslot]
      refine .inl ⟨hslot, rfl, ?_⟩
      have hout : w.takenOut (fun kind => kind = target.kind) = [target] := by
        cases hk : target.kind <;> rw [hk] at hslot
        · simp [FdWaiters.takenOut, show w.read = some target from hslot]
        · simp [FdWaiters.takenOut, show w.write = some target from hslot]
      have hv : ∀ kind, (w.setSlot target.kind none).slot kind =
          if kind = target.kind then none else w.slot kind := by
        intro kind
        split
        · next he => rw [he, FdWaiters.slot_setSlot]
        · next he => exact FdWaiters.slot_setSlot_other _ _ he
      have hp : g.pending - 1 = g.pending - (w.takenOut fun kind => kind = target.kind).length := by
        rw [hout]
        rfl
      have htakes : g.Takes ({ g with pending := g.pending - 1 }.settle target.fd
          (w.setSlot target.kind none) fails) (w.takenOut fun kind => kind = target.kind) :=
        Takes.settle _ h hw hv fails rfl rfl hp rfl
      rw [hout] at htakes
      exact htakes.congr rfl rfl rfl rfl
    · rw [if_neg hslot]
      exact .inr ⟨hslot, rfl⟩

theorem takes_cancel (h : g.Sound) (fd : ℤ) (fails : Fails) :
    g.Takes (g.cancel fd fails).1 ((g.cancel fd fails).2.map Prod.fst) :=
  (takes_takeAll h fd .stopped fails).congr rfl rfl rfl rfl

theorem takes_requestStop (h : g.Sound) (fails : ℤ → Fails) :
    Takes { g with stopped := true } (g.requestStop fails).1
      ((g.requestStop fails).2.map Prod.fst) := by
  have hstopped : ({ g with stopped := true } : Registry).Sound := h.congr rfl rfl rfl
  exact (takes_takeAllOf hstopped .stopped fails g.keys).congr rfl rfl rfl rfl

theorem takes_completeAllWithError (h : g.Sound) (error : ℕ) (fails : ℤ → Fails) :
    Takes { g with stopped := true } (g.completeAllWithError error fails).1
      ((g.completeAllWithError error fails).2.map Prod.fst) := by
  have hstopped : ({ g with stopped := true } : Registry).Sound := h.congr rfl rfl rfl
  exact (takes_takeAllOf hstopped (.error { code := error, what := "epoll_wait" }) fails
    g.keys).congr rfl rfl rfl rfl

/-- Where all waiters of all entries are taken, none stays. -/
theorem takeAllOf_none (completion : Completion) (fails : ℤ → Fails) (fds : List ℤ) (fd : ℤ)
    (hfd : fd ∈ fds ∨ g.fdWaiters fd = none) :
    (takeAllOf completion fails g fds).1.fdWaiters fd = none := by
  induction fds generalizing g with
  | nil =>
    rcases hfd with hm | hnone
    · cases hm
    · exact hnone
  | cons i fds ih =>
    have hone : fd = i ∨ g.fdWaiters fd = none → (g.takeAll i completion (fails i)).1.fdWaiters fd = none := by
      intro hcase
      unfold takeAll
      split
      · next hi =>
        rcases hcase with rfl | hnone
        · exact hi
        · exact hnone
      · by_cases he : fd = i
        · subst he
          exact Function.update_self _ _ _
        · exact (Function.update_of_ne he _ _).trans (hcase.resolve_left he)
    refine ih ?_
    rcases hfd with hm | hnone
    · rcases List.mem_cons.mp hm with he | hm
      · exact .inr (hone (.inl he))
      · exact .inl hm
    · exact .inr (hone (.inr hnone))

/-- A stop leaves no waiter, whatever it is that the taken ones are completed with. -/
theorem takeAllOf_keys (h : g.Sound) (completion : Completion) (fails : ℤ → Fails) (fd : ℤ)
    (kind : Readiness) : (takeAllOf completion fails { g with stopped := true } g.keys).1.resident fd kind =
      none := by
  have hnone := takeAllOf_none (g := { g with stopped := true }) completion fails g.keys fd (by
    by_cases hm : fd ∈ g.keys
    · exact .inl hm
    · exact .inr (by simpa using mt (h.mem_keys fd).mpr hm))
  rw [resident, hnone]
  rfl

theorem takes_poll (h : g.Sound) (events : List Polled) :
    g.Takes (g.poll events).1 ((g.poll events).2.1.map Prod.fst) :=
  (takes_takeEvents h events).congr rfl rfl rfl rfl

/-- After `try_emplace` there is an entry, which may have no waiter yet. -/
structure Emplaced (g e : Registry) (fd : ℤ) (w : FdWaiters) : Prop where
  stopped : e.stopped = g.stopped
  counted : e.Counted
  waiting : ∀ i u, i ≠ fd → e.fdWaiters i = some u → u.empty = false
  entry : e.fdWaiters fd = some w
  resident : ∀ i kind, e.resident i kind = g.resident i kind

theorem emplaced_tryEmplace (h : g.Sound) (fd : ℤ) :
    g.Emplaced (g.tryEmplace fd).1 fd (g.tryEmplace fd).2 := by
  unfold tryEmplace
  split
  · next w hw => exact ⟨rfl, h.toCounted, fun i u _ => h.waiting i u, hw, fun _ _ => rfl⟩
  · next hw =>
    have hmem : fd ∉ g.keys := fun hm => by simpa [hw] using (h.mem_keys fd).mp hm
    have hresident : ∀ i kind, Registry.resident
        { g with fdWaiters := Function.update g.fdWaiters fd (some {}), keys := fd :: g.keys } i kind =
          g.resident i kind := by
      intro i kind
      by_cases hi : i = fd
      · subst hi
        rw [resident, resident, hw]
        dsimp only
        rw [Function.update_self]
        cases kind <;> rfl
      · rw [resident, resident]
        dsimp only
        rw [Function.update_of_ne hi]
    refine ⟨rfl, ⟨List.nodup_cons.mpr ⟨hmem, h.nodup⟩, fun i => ?_, fun i kind record hr => ?_, ?_⟩,
      fun i u hi hu => ?_, Function.update_self _ _ _, hresident⟩
    · by_cases hi : i = fd
      · subst hi
        simp
      · simp [hi, h.mem_keys]
    · rw [hresident] at hr
      exact h.place i kind record hr
    · have hnew : census occupiedSlots (Function.update g.fdWaiters fd (some {})) (fd :: g.keys) =
          occupiedSlots (Function.update g.fdWaiters fd (some {}) fd) +
            census occupiedSlots (Function.update g.fdWaiters fd (some {})) g.keys := rfl
      have hrest := census_update_of_notMem (g := occupiedSlots) (f := g.fdWaiters) (x := some {}) hmem
      have hempty : occupiedSlots (some {}) = 0 := rfl
      rw [Function.update_self] at hnew
      have hcount := h.pending
      dsimp only
      omega
    · exact h.waiting i u ((Function.update_of_ne hi _ _).symm.trans hu)

/-- The record is put in its slot. -/
structure Puts (g t : Registry) (record : Record) : Prop where
  sound : t.Sound
  running : t.stopped = false
  free : g.resident record.fd record.kind = none
  resident : ∀ fd kind, t.resident fd kind =
    if fd = record.fd ∧ kind = record.kind then some record else g.resident fd kind

/-- Nothing moves. -/
structure Keeps (g t : Registry) : Prop where
  sound : t.Sound
  stopped : t.stopped = g.stopped
  resident : ∀ fd kind, t.resident fd kind = g.resident fd kind

/-- The record becomes pending, or it is completed and the slots stay as they were. -/
theorem startLocked_spec (h : g.Sound) (record : Record) (fails again : Fails) :
    ((g.startLocked record fails again).2 = ([], true) ∧
      g.Puts (g.startLocked record fails again).1 record) ∨
    (∃ completion, (g.startLocked record fails again).2 = ([(record, completion)], false) ∧
      g.Keeps (g.startLocked record fails again).1 ∧
      (∀ other, ¬(g.closed ∨ g.stopped) → ¬record.fd < 0 →
        g.resident record.fd record.kind = some other → completion = .error duplicateWaiter)) := by
  unfold startLocked
  split
  · next hc => exact .inr ⟨_, rfl, ⟨h, rfl, fun _ _ => rfl⟩, fun _ hn => absurd hc hn⟩
  next hopen =>
  split
  · next hfd => exact .inr ⟨_, rfl, ⟨h, rfl, fun _ _ => rfl⟩, fun _ _ hn => absurd hfd hn⟩
  dsimp only
  have he := emplaced_tryEmplace h record.fd
  have hspec : ∀ other, (g.tryEmplace record.fd).2.slot record.kind = some other →
      (g.tryEmplace record.fd).1 = g := by
    intro other
    unfold tryEmplace
    split
    · exact fun _ => rfl
    · cases record.kind <;> exact fun hn => by cases hn
  generalize (g.tryEmplace record.fd).1 = e at *
  generalize (g.tryEmplace record.fd).2 = w at *
  split
  · next other hslot =>
    obtain rfl := hspec other hslot
    exact .inr ⟨_, rfl, ⟨h, rfl, fun _ _ => rfl⟩, fun _ _ _ _ => rfl⟩
  · next hslot =>
    -- the slot is free: the record takes it, and gives it back if the kernel refuses
    have hfree : g.resident record.fd record.kind = none := by
      rw [← he.resident, resident_of_entry he.entry, hslot]
    have hset := (updateInterest_frame e.kernel record.fd (w.setSlot record.kind (some record)) fails).2
    have hplace : ∀ kind r, w.slot kind = some r → r.fd = record.fd ∧ r.kind = kind := fun kind r hr =>
      he.counted.place record.fd kind r ((resident_of_entry he.entry kind).trans hr)
    generalize updateInterest e.kernel record.fd (w.setSlot record.kind (some record)) fails = added at *
    split
    · have hslots : ∀ kind, added.waiters.slot kind =
          if kind = record.kind then some record else w.slot kind := by
        intro kind
        rw [hset]
        split
        · next hk => rw [hk, FdWaiters.slot_setSlot]
        · next hk => exact FdWaiters.slot_setSlot_other _ _ hk
      have hnot : added.waiters.empty = false :=
        FdWaiters.empty_eq_false_iff.mpr ⟨record.kind, record, by rw [hslots, if_pos rfl]⟩
      have hput : ∀ t : Registry, t.put record.fd added.waiters =
          t.putOrErase record.fd added.waiters := by
        intro t
        rw [putOrErase, if_neg (Bool.eq_false_iff.mp hnot)]
      have hcount := (FdWaiters.occupied_congr hset).trans (FdWaiters.occupied_setSlot_some record hslot)
      rw [hput]
      have hrunning : e.stopped = false := by
        rw [he.stopped]
        exact Bool.eq_false_iff.mpr fun hs => hopen (.inr hs)
      refine .inl ⟨rfl, ?_, stopped_putOrErase.trans hrunning, hfree, fun fd kind => ?_⟩
      · refine Sound.putOrErase he.counted he.waiting he.entry (fun kind r hr => ?_) rfl rfl ?_
        · rw [hslots] at hr
          split at hr
          · next hk =>
            cases hr
            exact ⟨rfl, hk.symm⟩
          · exact hplace kind r hr
        · dsimp only
          omega
      · rw [resident_putOrErase, hslots, ← he.resident]
        by_cases hfd : fd = record.fd
        · subst hfd
          by_cases hk : kind = record.kind
          · rw [if_pos rfl, if_pos hk, if_pos ⟨rfl, hk⟩]
          · rw [if_pos rfl, if_neg hk, if_neg fun hand => hk hand.2, resident_of_entry he.entry]
        · rw [if_neg hfd, if_neg fun hand => hfd hand.1]
          rfl
    · next error _ =>
      refine .inr ⟨_, rfl, ?_, fun other _ _ hother => by simp [hfree] at hother⟩
      rw [settle]
      dsimp only
      -- the slot is emptied again, so that all slots are as before
      have hback := (updateInterest_frame added.kernel record.fd
        (added.waiters.setSlot record.kind none) again).2
      generalize updateInterest added.kernel record.fd (added.waiters.setSlot record.kind none) again =
        updated at *
      have hslots : ∀ kind, updated.waiters.slot kind = w.slot kind := by
        intro kind
        rw [hback]
        by_cases hk : kind = record.kind
        · rw [hk, FdWaiters.slot_setSlot, hslot]
        · rw [FdWaiters.slot_setSlot_other _ _ hk, hset, FdWaiters.slot_setSlot_other _ _ hk]
      have hcount := FdWaiters.occupied_congr hslots
      refine ⟨?_, stopped_putOrErase.trans he.stopped, fun fd kind => ?_⟩
      · refine Sound.putOrErase he.counted he.waiting he.entry (fun kind r hr => ?_) rfl rfl ?_
        · exact hplace kind r ((hslots kind).symm.trans hr)
        · dsimp only
          omega
      · rw [resident_putOrErase, hslots]
        split
        · next hfd => rw [hfd, ← he.resident, resident_of_entry he.entry]
        · exact he.resident fd kind

theorem Sound.finish (h : g.Sound) (count : ℕ) : (g.finishDeliveries count).Sound := h.congr rfl rfl rfl

theorem Sound.close (h : g.Sound) : g.close.Sound := h.congr rfl rfl rfl

end Registry

end CCForge.Epoll
