import CCForge.Lib.Updates
import CCForge.Split.Model
import Mathlib.Data.List.Count
import Mathlib.Tactic.SplitIfs

/-!
# The invariant of split

A subscriber that has registered stands in exactly one place: its callback is queued
or in the hands of the source, its own call is about to deliver, it was completed, or
its delivery found it destroyed. Every step moves one subscriber from one place to
the next, so their number is kept.
-/

namespace CCForge.Split

variable {V E : Type} {s s' : State V E} {op : OpId}

/-! ## Places -/

namespace Call

/-- The call has a delivery still to make. -/
def token : Call E → ℕ
  | .direct | .failing _ | .delivering | .deliveringError _ => 1
  | _ => 0

def registered : Call E → ℕ
  | .connected | .registering => 0
  | _ => 1

/-- The call won the exchange. -/
def begun : Call E → Bool
  | .delivering | .deliveringError _ => true
  | _ => false

end Call

namespace Source

def callbacks : Source E → List OpId
  | .calling callbacks => callbacks
  | .locked op callbacks | .delivering op callbacks => op :: callbacks
  | _ => []

/-- The subscriber for which the source won the exchange. -/
def delivers : Source E → Option OpId
  | .delivering op _ => some op
  | _ => none

/-- The source runs callbacks. -/
def calls : Source E → Bool
  | .calling _ | .locked _ _ | .delivering _ _ => true
  | _ => false

def starts : Source E → ℕ
  | .idle => 0
  | _ => 1

end Source

/-- In how many places a subscriber stands. -/
def State.places (s : State V E) (op : OpId) : ℕ :=
  s.onDone.count op + s.source.callbacks.count op + (s.sub op).call.token +
    (s.completed.map Prod.fst).count op + s.dropped.count op

/-- A delivery to the subscriber has begun. -/
def State.Begun (s : State V E) (op : OpId) : Prop :=
  (s.sub op).call.begun = true ∨ s.source.delivers = some op

/-! ## The invariant -/

/-- How the phase, the callbacks and the source go together. -/
def Phased (s : State V E) : Prop :=
  match s.phase with
  | .idle => s.source = .idle ∧ s.onDone = [] ∧ ∀ op, (s.sub op).call ≠ .sourceStart
  | .running => s.onDone ≠ [] ∧
      ((s.source = .idle ∧ ∃ op, ∀ op', (s.sub op').call = .sourceStart ↔ op' = op) ∨
        ((s.source = .running ∨ ∃ error, s.source = .caught error) ∧
          ∀ op, (s.sub op).call ≠ .sourceStart))
  | .done => s.cached.isSome = true ∧ (∀ op, (s.sub op).call ≠ .sourceStart) ∧
      ((s.source = .idle ∧ s.firstThrew ≠ none ∧ s.onDone = []) ∨ s.source = .notifying ∨
        (s.source.calls = true ∧ s.onDone = []))

/-- What a subscriber receives. -/
def Receives (s : State V E) (op : OpId) (completion : Completion V E) : Prop :=
  match (s.sub op).threw with
  | none => s.phase = .done ∧ s.cached = some completion
  | some error => completion = .error error

structure Inv (s : State V E) : Prop where
  places : ∀ op, s.places op = (s.sub op).call.registered
  inactive : ∀ op, (s.sub op).active = false →
    (s.sub op).destroyed = true ∨ s.Begun op ∨ op ∈ s.completed.map Prod.fst
  destroyed : ∀ op, (s.sub op).destroyed = true → (s.sub op).active = false
  dropped : ∀ op ∈ s.dropped, (s.sub op).destroyed = true
  threw : ∀ op error, (s.sub op).threw = some error → op ∉ s.onDone ∧ op ∉ s.source.callbacks ∧
    ((s.sub op).call = .failing error ∨ (s.sub op).call = .deliveringError error ∨
      (s.sub op).call = .returned)
  failing : ∀ op error, (s.sub op).call = .failing error ∨ (s.sub op).call = .deliveringError error →
    (s.sub op).threw = some error
  direct : ∀ op, (s.sub op).call = .direct ∨ (s.sub op).call = .delivering → s.phase = .done
  results : ∀ op completion, (op, completion) ∈ s.completed → Receives s op completion
  phased : Phased s
  starts : s.sourceStarts = s.source.starts
  terminated : s.terminated = false

theorem inv_initial (signatures : Signatures) : Inv { signatures := signatures : State V E } := by
  refine ⟨fun op => rfl, nofun, nofun, nofun, nofun, ?_, ?_, nofun, ⟨rfl, rfl, nofun⟩, rfl, rfl⟩
  · rintro op error (h | h) <;> cases h
  · rintro op (h | h) <;> cases h

namespace Inv

/-- A subscriber stands in one place at most. -/
theorem places_le (h : Inv s) (op : OpId) : s.places op ≤ 1 := by
  rw [h.places]
  cases (s.sub op).call <;> simp [Call.registered]

/-- A subscriber that stands in a place and is not active was destroyed. -/
theorem destroyed_of_inactive (h : Inv s) (hact : (s.sub op).active = false)
    (hb : ¬s.Begun op) (hc : op ∉ s.completed.map Prod.fst) : (s.sub op).destroyed = true := by
  rcases h.inactive op hact with hd | hd | hd
  · exact hd
  · exact absurd hd hb
  · exact absurd hd hc

theorem not_completed (h : Inv s) (hp : 0 < s.onDone.count op + s.source.callbacks.count op +
    (s.sub op).call.token) : op ∉ s.completed.map Prod.fst := by
  intro hm
  have hle := h.places_le op
  have hpos := List.count_pos_iff.mpr hm
  unfold State.places at hle
  omega

theorem not_delivers (h : Inv s) (ht : (s.sub op).call.token = 1) : s.source.delivers ≠ some op := by
  intro hd
  have hle := h.places_le op
  unfold State.places at hle
  revert hd hle
  cases s.source with
  | delivering op' callbacks =>
    intro hd hle
    cases hd
    simp only [Source.callbacks, List.count_cons_self] at hle
    omega
  | _ => exact fun hd _ => nomatch hd

/-- The subscriber whose callback the source runs has no delivery of its own to make. -/
theorem not_begun (h : Inv s) (hm : op ∈ s.source.callbacks) : (s.sub op).call.begun = false := by
  have hle := h.places_le op
  have hpos := List.count_pos_iff.mpr hm
  unfold State.places at hle
  cases hc : (s.sub op).call with
  | delivering =>
    simp only [hc, Call.token] at hle
    omega
  | deliveringError error =>
    simp only [hc, Call.token] at hle
    omega
  | _ => rfl

end Inv

/-! ## Steps of a call -/

theorem Phased.same (h : Phased s) (hp : s'.phase = s.phase) (hs : s'.source = s.source)
    (hon : s'.onDone = s.onDone) (hc : s'.cached = s.cached) (hf : s'.firstThrew = s.firstThrew)
    (hx : ∀ o, (s'.sub o).call = .sourceStart ↔ (s.sub o).call = .sourceStart) : Phased s' := by
  unfold Phased at h ⊢
  simpa only [hp, hs, hon, hc, hf, ne_eq, hx] using h

/-- A step of the call of `op` that concerns only its subscriber. -/
theorem Inv.setSub {x : Sub E} (h : Inv s)
    (hplaces : x.call.token + (s.sub op).call.registered =
      (s.sub op).call.token + x.call.registered)
    (hstart : x.call = .sourceStart ↔ (s.sub op).call = .sourceStart)
    (hact : x.active = false → x.destroyed = true ∨ x.call.begun = true ∨
      ((s.sub op).active = false ∧ (s.sub op).call.begun = false))
    (hdes : x.destroyed = true → x.active = false)
    (hold : (s.sub op).destroyed = true → x.destroyed = true)
    (hthrew : ∀ error, x.threw = some error → op ∉ s.onDone ∧ op ∉ s.source.callbacks ∧
      (x.call = .failing error ∨ x.call = .deliveringError error ∨ x.call = .returned))
    (hfail : ∀ error, x.call = .failing error ∨ x.call = .deliveringError error →
      x.threw = some error)
    (hdirect : x.call = .direct ∨ x.call = .delivering → s.phase = .done)
    (hres : x.threw = (s.sub op).threw ∨ op ∉ s.completed.map Prod.fst) : Inv (s.setSub op x) := by
  refine ⟨?_, ?_, ?_, ?_, ?_, ?_, ?_, ?_, ?_, h.starts, h.terminated⟩
  · intro o
    have ho := h.places o
    by_cases hoo : o = op
    · subst hoo
      simp only [State.places, State.setSub, Function.update_self] at ho ⊢
      omega
    · simpa only [State.places, State.setSub, Function.update_of_ne hoo] using ho
  · refine forall_update (P := fun o (y : Sub E) => y.active = false → y.destroyed = true ∨
      (y.call.begun = true ∨ s.source.delivers = some o) ∨ o ∈ s.completed.map Prod.fst)
      (fun o _ => h.inactive o) ?_
    intro ha
    rcases hact ha with hd | hb | ⟨ha', hb⟩
    · exact .inl hd
    · exact .inr (.inl (.inl hb))
    · rcases h.inactive op ha' with hd | (hd | hd) | hd
      · exact .inl (hold hd)
      · rw [hb] at hd
        cases hd
      · exact .inr (.inl (.inr hd))
      · exact .inr (.inr hd)
  · exact forall_update (P := fun _ (y : Sub E) => y.destroyed = true → y.active = false)
      (fun o _ => h.destroyed o) hdes
  · refine forall_update (P := fun o (y : Sub E) => o ∈ s.dropped → y.destroyed = true)
      (fun o _ => h.dropped o) ?_
    exact fun hm => hold (h.dropped op hm)
  · exact forall_update (P := fun o (y : Sub E) => ∀ error, y.threw = some error → o ∉ s.onDone ∧
      o ∉ s.source.callbacks ∧ (y.call = .failing error ∨ y.call = .deliveringError error ∨
        y.call = .returned)) (fun o _ => h.threw o) hthrew
  · exact forall_update (P := fun _ (y : Sub E) => ∀ error, y.call = .failing error ∨
      y.call = .deliveringError error → y.threw = some error) (fun o _ => h.failing o) hfail
  · exact forall_update (P := fun _ (y : Sub E) => y.call = .direct ∨ y.call = .delivering → s.phase = .done)
      (fun o _ => h.direct o) hdirect
  · intro o c hm
    have hr := h.results o c hm
    have hsame : ((s.setSub op x).sub o).threw = (s.sub o).threw := by
      by_cases hoo : o = op
      · subst hoo
        rcases hres with hres | hres
        · simpa using hres
        · exact absurd (List.mem_map.mpr ⟨_, hm, rfl⟩) hres
      · simp [Function.update_of_ne hoo]
    unfold Receives at hr ⊢
    rw [hsame]
    exact hr
  · exact h.phased.same rfl rfl rfl rfl rfl (forall_update
      (P := fun o (y : Sub E) => y.call = .sourceStart ↔ (s.sub o).call = .sourceStart)
      (fun _ _ => Iff.rfl) hstart)

end CCForge.Split
