import CCForge.Lib.Custody
import CCForge.UniqueResource.Model

/-!
# Each resource is released once

The engaged objects and the log have custody of what was handed over: a resource belongs to one engaged
object, or it was passed to a deleter or released, once.
-/

namespace CCForge.UniqueResource

variable {s s' t : State} {i j : ObjId} {n : ℕ} {o o' : Obj} {T : Traits} {fails : Fails} {rest : Rest}
  {input : Input} {event : Event}

/-- The resource for which an object is engaged. -/
def engagedFor (o : Option Obj) : Option ℕ := o.bind fun o => if o.executeOnReset then o.resource else none

def State.owned (s : State) (i : ObjId) : Option ℕ := engagedFor (s.objects i)

def Event.resource : Event → Option ℕ
  | .called _ _ resource _ => resource
  | .released _ resource => resource

/-- What left the owners. -/
def gone (log : List Event) : List ℕ := log.filterMap Event.resource

/-- What was passed to a deleter. -/
def passed (log : List Event) : List ℕ :=
  log.filterMap fun
    | .called _ _ resource _ => resource
    | .released _ _ => none

/-- What was released from its owner. -/
def released (log : List Event) : List ℕ :=
  log.filterMap fun
    | .called _ _ _ _ => none
    | .released _ resource => resource

/-- A deleter gets a resource that was handed over and that no object is engaged for, but the source in
the handler of a move construction. -/
def Event.Sound : Event → Prop
  | .called site _ resource objects => resource.isSome ∧
      ∀ i, engagedFor (objects i) = resource → site = .moveHandler i
  | .released _ resource => resource.isSome

structure Sound (s : State) : Prop where
  custody : Custody s.owned s.handed (gone s.log)
  whole : ∀ i o, s.objects i = some o → o.executeOnReset = true → o.resource.isSome
  events : ∀ event ∈ s.log, event.Sound

theorem sound_start : Sound {} := ⟨Custody.empty, by simp, by simp⟩

/-! ## What a change does -/

theorem owned_set (s : State) (i : ObjId) (o : Option Obj) :
    (s.set i o).owned = Function.update s.owned i (engagedFor o) := by
  funext j
  by_cases hj : j = i
  · subst hj
    simp [State.owned, State.set]
  · simp [State.owned, State.set, hj]

theorem owned_of (h : s.objects i = some o) : s.owned i = engagedFor (some o) := by rw [State.owned, h]

theorem engagedFor_engaged (h : o.executeOnReset = true) : engagedFor (some o) = o.resource := by
  simp [engagedFor, h]

theorem engagedFor_disengaged (h : o.executeOnReset = false) : engagedFor (some o) = none := by
  simp [engagedFor, h]

theorem gone_append (log : List Event) (h : event.resource = some n) :
    gone (log ++ [event]) = gone log ++ [n] := by
  simp [gone, h]

/-- An object has its resource while it is engaged. -/
def Whole (o : Option Obj) : Prop := ∀ x, o = some x → x.executeOnReset = true → x.resource.isSome

theorem whole_disengaged (h : o.executeOnReset = false) : Whole (some o) := by
  rintro x rfl' hx
  cases rfl'
  rw [h] at hx
  cases hx

theorem Sound.whole_set {x : Option Obj} (h : Sound s) (hx : Whole x) (k : ObjId) (o : Obj)
    (hk : (s.set i x).objects k = some o) (ho : o.executeOnReset = true) : o.resource.isSome := by
  by_cases hki : k = i
  · subst hki
    simp only [State.set, Function.update_self] at hk
    exact hx o hk ho
  · simp only [State.set, Function.update_of_ne hki] at hk
    exact h.whole k o hk ho

/-- A change that leaves the object engaged for what it was. -/
theorem Sound.set_same {x : Option Obj} (h : Sound s) (hx : Whole x) (hsame : engagedFor x = s.owned i) :
    Sound (s.set i x) := by
  refine ⟨?_, h.whole_set hx, h.events⟩
  rw [owned_set, hsame, Function.update_eq_self]
  exact h.custody

/-- An object gives its resource up. -/
theorem Sound.drop {x : Option Obj} (event : Event) (h : Sound s) (hi : s.owned i = some n) (hx : Whole x)
    (hnone : engagedFor x = none) (hevent : event.Sound) (hresource : event.resource = some n) :
    Sound { s.set i x with log := s.log ++ [event] } := by
  refine ⟨?_, h.whole_set hx, ?_⟩
  · rw [gone_append s.log hresource]
    have hdrop := h.custody.drop hi
    rw [← hnone, ← owned_set s i x] at hdrop
    exact hdrop
  · intro e he
    rcases List.mem_append.mp he with he | he
    · exact h.events e he
    · rw [List.mem_singleton] at he
      exact he ▸ hevent

/-- An object takes what is handed over. -/
theorem Sound.make {x : Option Obj} (h : Sound s) (hi : s.owned i = none) (hx : Whole x)
    (hmade : engagedFor x = some s.handed) : Sound { s.set i x with handed := s.handed + 1 } := by
  refine ⟨?_, h.whole_set hx, h.events⟩
  have hmake := h.custody.make hi
  rw [← hmade, ← owned_set s i x] at hmake
  exact hmake

/-- What is handed over is given up at once. -/
theorem Sound.make_drop (event : Event) (h : Sound s) (hevent : event.Sound)
    (hresource : event.resource = some s.handed) :
    Sound { s with handed := s.handed + 1, log := s.log ++ [event] } := by
  refine ⟨?_, h.whole, ?_⟩
  · rw [gone_append s.log hresource]
    exact h.custody.make_drop
  · intro e he
    rcases List.mem_append.mp he with he | he
    · exact h.events e he
    · rw [List.mem_singleton] at he
      exact he ▸ hevent

/-- No object is engaged for what is being handed over. -/
theorem Sound.owned_ne_handed (h : Sound s) (i : ObjId) : s.owned i ≠ some s.handed :=
  fun he => Nat.lt_irrefl _ (h.custody.lt i _ he)

/-! ## reset and release -/

theorem reset_eq (hi : s.objects i = some o) : reset s i = some (if o.executeOnReset then
    (s.set i (some { o with executeOnReset := false })).invoke (.reset i) o.deleter o.resource else s) := by
  rw [reset, hi]
  rfl

/-- After `reset` the object is disengaged, and what it had was passed to its deleter. -/
theorem Sound.reset (h : Sound s) (hreset : reset s i = some t) : Sound t ∧ t.owned i = none ∧
    t.handed = s.handed ∧ (∀ j, j ≠ i → t.objects j = s.objects j) ∧
    (∃ o, t.objects i = some o ∧ o.executeOnReset = false) ∧
    passed t.log = passed s.log ++ (s.owned i).toList ∧ released t.log = released s.log := by
  cases hi : s.objects i with
  | none => simp [UniqueResource.reset, hi] at hreset
  | some o =>
    rw [reset_eq hi] at hreset
    cases he : o.executeOnReset with
    | false =>
      have hnone : s.owned i = none := by rw [owned_of hi, engagedFor_disengaged he]
      rw [if_neg (by simp [he])] at hreset
      cases hreset
      exact ⟨h, hnone, rfl, fun _ _ => rfl, ⟨o, hi, he⟩, by simp [hnone], rfl⟩
    | true =>
      obtain ⟨n, hn⟩ := Option.isSome_iff_exists.mp (h.whole i o hi he)
      have howned : s.owned i = some n := by rw [owned_of hi, engagedFor_engaged he, hn]
      rw [if_pos he] at hreset
      cases hreset
      refine ⟨h.drop _ howned (whole_disengaged rfl) (engagedFor_disengaged rfl) ⟨by simp [hn], ?_⟩ hn, ?_,
        rfl, ?_, ⟨{ o with executeOnReset := false }, ?_, rfl⟩, ?_, ?_⟩
      -- at the call the flag is already cleared, so no object is engaged for it
      · intro k hk
        rw [hn] at hk
        change (s.set i _).owned k = some n at hk
        have hset := hk
        rw [owned_set] at hset
        by_cases hki : k = i
        · subst hki
          rw [Function.update_self, engagedFor_disengaged rfl] at hset
          cases hset
        · rw [Function.update_of_ne hki] at hset
          exact absurd (h.custody.unique k i n hset howned) hki
      · show (s.set i _).owned i = none
        rw [owned_set, Function.update_self, engagedFor_disengaged rfl]
      · intro j hj
        simp [State.invoke, State.set, hj]
      · simp [State.invoke, State.set]
      · simp [State.invoke, State.set, passed, howned, hn]
      · simp [State.invoke, State.set, released]

theorem release_eq (hi : s.objects i = some o) : release s i = some (if o.executeOnReset then
    { s.set i (some { o with executeOnReset := false }) with log := s.log ++ [.released i o.resource] }
      else s.set i (some { o with executeOnReset := false })) := by
  rw [release, hi]
  rfl

theorem Sound.release (h : Sound s) (hrelease : release s i = some t) : Sound t := by
  cases hi : s.objects i with
  | none => simp [UniqueResource.release, hi] at hrelease
  | some o =>
    rw [release_eq hi] at hrelease
    cases he : o.executeOnReset with
    | false =>
      rw [if_neg (by simp [he])] at hrelease
      cases hrelease
      refine h.set_same (whole_disengaged rfl) ?_
      rw [owned_of hi, engagedFor_disengaged he, engagedFor_disengaged rfl]
    | true =>
      obtain ⟨n, hn⟩ := Option.isSome_iff_exists.mp (h.whole i o hi he)
      have howned : s.owned i = some n := by rw [owned_of hi, engagedFor_engaged he, hn]
      rw [if_pos he] at hrelease
      cases hrelease
      exact h.drop _ howned (whole_disengaged rfl) (engagedFor_disengaged rfl) (by simp [Event.Sound, hn]) hn

/-! ## Construction -/

theorem constructResourceFromInput_cases (hinput : input.Constrained) (fails : Bool) (s : State) (deleter : ℕ)
    (resource : Option ℕ) (executeOnReset : Bool) :
    constructResourceFromInput input fails s deleter resource executeOnReset = (s, false) ∨
      constructResourceFromInput input fails s deleter resource executeOnReset =
        (if executeOnReset then s.invoke .constructHandler deleter resource else s, true) := by
  unfold constructResourceFromInput
  by_cases hnothrow : input.resourceNothrow = true
  · simp [hnothrow]
  -- a constrained argument that may throw is an lvalue, so the handler still has it
  · have hlvalue := hinput.1.resolve_left hnothrow
    cases fails <;> simp [hnothrow, hlvalue]

theorem constructDeleterFromInput_cases (hinput : input.Constrained) (fails : Bool) (s : State) (deleter : ℕ)
    (resource : Option ℕ) (executeOnReset : Bool) :
    constructDeleterFromInput input fails s deleter resource executeOnReset = (s, false) ∨
      constructDeleterFromInput input fails s deleter resource executeOnReset =
        (if executeOnReset then s.invoke .constructHandler deleter resource else s, true) := by
  unfold constructDeleterFromInput
  by_cases hnothrow : input.deleterNothrow = true
  · simp [hnothrow]
  · have hlvalue := hinput.2.resolve_left hnothrow
    cases fails <;> simp [hnothrow, hlvalue]

/-- With constrained arguments, the constructor makes the object or passes the resource to the deleter. -/
theorem constructTagged_cases (hinput : input.Constrained) (fails : Fails) (s : State) (i : ObjId)
    (deleter : ℕ) (resource : Option ℕ) (executeOnReset : Bool) :
    constructTagged input fails s i deleter resource executeOnReset =
        (s.set i (some ⟨resource, deleter, executeOnReset⟩), false) ∨
      constructTagged input fails s i deleter resource executeOnReset =
        (if executeOnReset then s.invoke .constructHandler deleter resource else s, true) := by
  unfold constructTagged
  rcases constructResourceFromInput_cases hinput fails.resource s deleter resource executeOnReset with
    hresource | hresource
  · rw [hresource]
    dsimp only
    rcases constructDeleterFromInput_cases hinput fails.deleter s deleter resource executeOnReset with
      hdeleter | hdeleter
    · rw [hdeleter]
      exact .inl rfl
    · rw [hdeleter]
      exact .inr rfl
  · rw [hresource]
    exact .inr rfl

/-- What is handed over with ownership is owned, or was passed to the deleter. -/
theorem Sound.constructTagged (h : Sound s) (hinput : input.Constrained) (hi : s.objects i = none)
    {deleter : ℕ} {threw : Bool}
    (hr : constructTagged input fails { s with handed := s.handed + 1 } i deleter (some s.handed) true =
      (t, threw)) : Sound t ∧ (threw = true → s.handed ∈ passed t.log) := by
  have howned : s.owned i = none := by rw [State.owned, hi]; rfl
  rcases constructTagged_cases hinput fails { s with handed := s.handed + 1 } i deleter (some s.handed) true
    with hmade | hfailed
  · rw [hmade] at hr
    cases hr
    refine ⟨h.make (x := some ⟨some s.handed, deleter, true⟩) howned (fun x hx _ => ?_) rfl, by simp⟩
    cases hx
    rfl
  · rw [hfailed] at hr
    cases hr
    refine ⟨h.make_drop (.called .constructHandler deleter (some s.handed) s.objects)
      ⟨rfl, fun k hk => absurd hk (h.owned_ne_handed k)⟩ rfl, fun _ => ?_⟩
    simp [State.invoke, passed]

/-- An object without ownership. -/
theorem Sound.constructTagged_invalid (h : Sound s) (hinput : input.Constrained) (hi : s.objects i = none)
    {deleter : ℕ} {threw : Bool}
    (hr : UniqueResource.constructTagged input fails s i deleter none false = (t, threw)) : Sound t := by
  rcases constructTagged_cases hinput fails s i deleter none false with hmade | hfailed
  · rw [hmade] at hr
    cases hr
    refine h.set_same (whole_disengaged rfl) ?_
    rw [State.owned, hi]
    rfl
  · rw [hfailed] at hr
    cases hr
    exact h

/-! ## Move construction -/

theorem set_set (s : State) (i : ObjId) (x y : Option Obj) : (s.set i x).set i y = s.set i y := by
  simp [State.set]

@[simp] theorem set_objects_self (s : State) (i : ObjId) (x : Option Obj) : (s.set i x).objects i = x := by
  simp [State.set]

/-- The source is untouched or was disengaged, or it was disengaged in the handler, or the new object has
taken over. -/
inductive MoveConstructed (s : State) (i j : ObjId) (other : Obj) : Result → Prop
  | unchanged : MoveConstructed s i j other (s, true)
  | disengaged (left : Obj) : other.executeOnReset = false → left.executeOnReset = false →
      MoveConstructed s i j other (s.set j (some left), true)
  | handled (moved left : Obj) (deleter : ℕ) : other.executeOnReset = true → left.executeOnReset = false →
      MoveConstructed s i j other
        (((s.set j (some moved)).invoke (.moveHandler j) deleter other.resource).set j (some left), true)
  | made (left made : Obj) : left.executeOnReset = false → made.resource = other.resource →
      made.executeOnReset = other.executeOnReset →
      MoveConstructed s i j other ((s.set j (some left)).set i (some made), false)

theorem moveConstruct_cases {r : Result} (hj : s.objects j = some o)
    (hr : moveConstruct T fails rest s i j = some r) : MoveConstructed s i j o r := by
  unfold moveConstruct at hr
  rw [hj, Option.bind_some] at hr
  cases hT : T.resourceMoveConstruct with
  | true =>
    simp only [constructResourceFromOther, hT, if_true, set_objects_self, Option.bind_some] at hr
    cases hD : T.deleterMoveConstruct with
    | true =>
      simp only [constructDeleterFromOther, hD, if_true, set_objects_self, Option.map_some, set_set] at hr
      cases hr
      exact .made _ _ rfl rfl rfl
    | false =>
      cases hfails : fails.deleter with
      | true =>
        cases he : o.executeOnReset with
        | true =>
          simp [constructDeleterFromOther, hD, hfails, hT, he] at hr
          subst hr
          -- the resource left the source: the handler passes it on and then disengages the source
          exact .handled _ _ _ he rfl
        | false =>
          simp [constructDeleterFromOther, hD, hfails, hT, he] at hr
          subst hr
          exact .disengaged _ he rfl
      | false =>
        simp [constructDeleterFromOther, hD, hfails, set_set] at hr
        subst hr
        exact .made _ _ rfl rfl rfl
  | false =>
    cases hfails : fails.resource with
    | true =>
      simp [constructResourceFromOther, hT, hfails] at hr
      subst hr
      exact .unchanged
    | false =>
      simp only [constructResourceFromOther, hT, hfails, Bool.false_eq_true, if_false, hj,
        Option.bind_some] at hr
      cases hD : T.deleterMoveConstruct with
      | true =>
        simp only [constructDeleterFromOther, hD, if_true, set_objects_self, Option.map_some, set_set] at hr
        cases hr
        exact .made _ _ rfl rfl rfl
      | false =>
        cases hfails' : fails.deleter with
        | true =>
          simp [constructDeleterFromOther, hD, hfails', hT] at hr
          subst hr
          exact .unchanged
        | false =>
          simp [constructDeleterFromOther, hD, hfails', hj] at hr
          subst hr
          exact .made _ _ rfl rfl rfl

/-- The resource of the source is with it, still engaged, or was passed to a deleter and the source is
disengaged. -/
def SourceWhole (s t : State) (j : ObjId) : Prop :=
  ∀ n, s.owned j = some n → t.owned j = some n ∨
    n ∈ passed t.log ∧ ∀ x, t.objects j = some x → x.executeOnReset = false

/-- The source gives what it owns to another object. -/
theorem Sound.hand_over {left made : Obj} (h : Sound s) (hij : i ≠ j) (hi : s.owned i = none)
    (hleft : left.executeOnReset = false) (hmade : Whole (some made))
    (hsame : engagedFor (some made) = s.owned j) : Sound ((s.set j (some left)).set i (some made)) := by
  refine ⟨?_, fun k o hk ho => ?_, h.events⟩
  · rw [owned_set, owned_set, engagedFor_disengaged hleft, hsame, Function.update_comm hij.symm]
    exact h.custody.move hi hij.symm
  · by_cases hki : k = i
    · subst hki
      rw [set_objects_self] at hk
      exact hmade o hk ho
    · simp only [State.set, Function.update_of_ne hki] at hk
      exact h.whole_set (i := j) (whole_disengaged hleft) k o hk ho

theorem Sound.moveConstruct {threw : Bool} (h : Sound s) (hi : s.objects i = none) (hj : s.objects j = some o)
    (hr : MoveConstructed s i j o (t, threw)) : Sound t ∧ (threw = true → SourceWhole s t j) := by
  have hij : i ≠ j := by
    rintro rfl
    rw [hi] at hj
    cases hj
  cases hr with
  | unchanged => exact ⟨h, fun _ n hn => .inl hn⟩
  | disengaged left hother hleft =>
    have hnone : s.owned j = none := by rw [owned_of hj, engagedFor_disengaged hother]
    refine ⟨h.set_same (whole_disengaged hleft) (by rw [engagedFor_disengaged hleft, hnone]), fun _ n hn => ?_⟩
    rw [hnone] at hn
    cases hn
  | handled moved left deleter hother hleft =>
    obtain ⟨n, hn⟩ := Option.isSome_iff_exists.mp (h.whole j o hj hother)
    have howned : s.owned j = some n := by rw [owned_of hj, engagedFor_engaged hother, hn]
    have hdrop := h.drop (x := some left)
      (.called (.moveHandler j) deleter o.resource (s.set j (some moved)).objects) howned
      (whole_disengaged hleft) (engagedFor_disengaged hleft) ⟨by simp [hn], fun k hk => ?_⟩ hn
    · refine ⟨?_, fun _ m hm => .inr ⟨?_, fun x hx => ?_⟩⟩
      · rw [show ((s.set j (some moved)).invoke (.moveHandler j) deleter o.resource).set j (some left) =
          { s.set j (some left) with log := s.log ++ [.called (.moveHandler j) deleter o.resource
            (s.set j (some moved)).objects] } by simp [State.set, State.invoke]]
        exact hdrop
      · rw [howned] at hm
        cases hm
        simp [State.set, State.invoke, passed, hn]
      · rw [set_objects_self] at hx
        cases hx
        exact hleft
    · by_cases hkj : k = j
      · rw [hkj]
      · rw [hn] at hk
        change (s.set j (some moved)).owned k = some n at hk
        rw [owned_set, Function.update_of_ne hkj] at hk
        exact absurd (h.custody.unique k j n hk howned) hkj
  | made left made hleft hresource hexecute =>
    refine ⟨h.hand_over hij (by rw [State.owned, hi]; rfl) hleft ?_ ?_, by simp⟩
    · rintro x hx he
      cases hx
      rw [hresource]
      exact h.whole j o hj (hexecute ▸ he)
    · rw [owned_of hj]
      simp [engagedFor, hresource, hexecute]

/-! ## Move assignment -/

theorem set_objects_ne (s : State) (x : Option Obj) (h : j ≠ i) : (s.set i x).objects j = s.objects j := by
  simp [State.set, h]

theorem set_comm (s : State) (x y : Option Obj) (h : i ≠ j) :
    (s.set i x).set j y = (s.set j y).set i x := by
  simp [State.set, Function.update_comm h]

/-- The members of the target were assigned, or a copy threw and the source is untouched. -/
inductive Assigned (s : State) (i j : ObjId) (o other : Obj) : Result → Prop
  | threw (x : Obj) : x.executeOnReset = o.executeOnReset → Assigned s i j o other (s.set i (some x), true)
  | done (x y : Obj) : x.executeOnReset = o.executeOnReset → y.executeOnReset = other.executeOnReset →
      x.resource = other.resource → Assigned s i j o other ((s.set i (some x)).set j (some y), false)

section
variable (hi : s.objects i = some o) (hj : s.objects j = some o')
include hi hj

theorem moveResource_eq (hij : i ≠ j) : moveResource rest s i j =
    some ((s.set i (some { o with resource := o'.resource })).set j
      (some { o' with resource := rest.resource })) := by
  simp [moveResource, hi, hj, set_objects_ne _ _ hij.symm]

theorem moveDeleter_eq (hij : i ≠ j) : moveDeleter rest s i j =
    some ((s.set i (some { o with deleter := o'.deleter })).set j (some { o' with deleter := rest.deleter })) := by
  simp [moveDeleter, hi, hj, set_objects_ne _ _ hij.symm]

theorem copyResource_eq (fails : Bool) : copyResource fails rest s i j =
    some (if fails then (s.set i (some { o with resource := rest.resource }), true)
      else (s.set i (some { o with resource := o'.resource }), false)) := by
  simp [copyResource, hi, hj]

theorem copyDeleter_eq (fails : Bool) : copyDeleter fails rest s i j =
    some (if fails then (s.set i (some { o with deleter := rest.deleter }), true)
      else (s.set i (some { o with deleter := o'.deleter }), false)) := by
  simp [copyDeleter, hi, hj]

end

/-- A second assignment to the target replaces the first. -/
theorem set_pair (s : State) (x y z : Option Obj) (h : i ≠ j) :
    ((s.set i x).set j y).set i z = (s.set i z).set j y := by
  rw [set_comm _ _ _ h.symm, set_set]

/-- A copy throws, or the next statement goes on from what it assigned. -/
theorem of_andThen_copy {failed : Bool} {u v : State} {next : State → Option Result} {r : Result}
    (hr : andThen (some (if failed then (u, true) else (v, false))) next = some r) :
    r = (u, true) ∨ next v = some r := by
  cases failed with
  | true => exact .inl (Option.some.inj hr).symm
  | false => exact .inr hr

theorem assignMembers_cases {r : Result} (hij : i ≠ j) (hi : s.objects i = some o) (hj : s.objects j = some o')
    (hr : assignMembers T fails rest s i j = some r) : Assigned s i j o o' r := by
  have hi₁ (x : Option Obj) : (s.set i x).objects i = x := set_objects_self s i x
  have hj₁ (x : Option Obj) : (s.set i x).objects j = some o' := (set_objects_ne s x hij.symm).trans hj
  have hi₂ (x y : Option Obj) : ((s.set i x).set j y).objects i = x := by
    rw [set_objects_ne _ _ hij, set_objects_self]
  have hdone (x : Obj) : (s.set i (some x)).set j (some o') = s.set i (some x) := by
    rw [State.set, State.set, ← hj₁ (some x), State.set, Function.update_eq_self]
  unfold assignMembers at hr
  split at hr
  · split at hr
    · rw [moveResource_eq hi hj hij, Option.bind_some,
        moveDeleter_eq (hi₂ _ _) (set_objects_self _ _ _) hij, Option.map_some, set_pair _ _ _ _ hij,
        set_set] at hr
      cases hr
      exact .done _ _ rfl rfl rfl
    · rw [copyDeleter_eq hi hj] at hr
      rcases of_andThen_copy hr with rfl | hr
      · exact .threw _ rfl
      -- the deleter is copied first, so the resource leaves the source after the last copy
      · rw [moveResource_eq (hi₁ _) (hj₁ _) hij, Option.map_some, set_set] at hr
        cases hr
        exact .done _ _ rfl rfl rfl
  · split at hr
    · rw [copyResource_eq hi hj] at hr
      rcases of_andThen_copy hr with rfl | hr
      · exact .threw _ rfl
      · rw [moveDeleter_eq (hi₁ _) (hj₁ _) hij, Option.map_some, set_set] at hr
        cases hr
        exact .done _ _ rfl rfl rfl
    · rw [copyResource_eq hi hj] at hr
      rcases of_andThen_copy hr with rfl | hr
      · exact .threw _ rfl
      · rw [copyDeleter_eq (hi₁ _) (hj₁ _), set_set, set_set] at hr
        cases hr
        split
        · exact .threw _ rfl
        · rw [← hdone]
          exact .done _ _ rfl rfl rfl

/-- An assignment of an object to itself. -/
theorem assignMembers_self {r : Result} (hi : s.objects i = some o)
    (hr : assignMembers T fails rest s i i = some r) :
    ∃ x threw, x.executeOnReset = o.executeOnReset ∧ r = (s.set i (some x), threw) := by
  unfold assignMembers at hr
  cases hR : T.resourceMoveAssign <;> cases hD : T.deleterMoveAssign <;> cases hf : fails.resource <;>
    cases hg : fails.deleter <;>
    simp only [hR, hD, hf, hg, copyResource, copyDeleter, moveResource, moveDeleter, andThen, hi,
      set_objects_self, set_set, Option.bind_some, Option.map_some, Bool.false_eq_true, if_true, if_false,
      Option.some.injEq] at hr
  all_goals
    subst hr
    refine ⟨_, _, ?_, rfl⟩
    rfl

theorem assignMembers_none (hj : s.objects j = none) : assignMembers T fails rest s i j = none := by
  cases hR : T.resourceMoveAssign <;> cases hD : T.deleterMoveAssign <;>
    simp [assignMembers, moveResource, copyResource, copyDeleter, andThen, hR, hD, hj]

theorem Sound.moveAssign {threw : Bool} (h : Sound s)
    (hr : moveAssign T fails rest s i j = some (t, threw)) : Sound t ∧ (threw = true → SourceWhole s t j) := by
  unfold UniqueResource.moveAssign at hr
  obtain ⟨u, hu, hr⟩ := Option.bind_eq_some_iff.mp hr
  obtain ⟨hsound, hnone, -, hother, ⟨o, hi, ho⟩, hpassed, -⟩ := h.reset hu
  have hset (x : Obj) (hx : x.executeOnReset = o.executeOnReset) : Sound (u.set i (some x)) := by
    rw [ho] at hx
    exact hsound.set_same (whole_disengaged hx) (by rw [engagedFor_disengaged hx, hnone])
  obtain ⟨⟨v, b⟩, hv, hr⟩ := Option.bind_eq_some_iff.mp hr
  by_cases hij : i = j
  · subst hij
    -- an object that is assigned to itself was reset before its members were touched
    have hwhole (x : Obj) (hx : x.executeOnReset = false) : SourceWhole s (u.set i (some x)) i := by
      intro n hn
      refine .inr ⟨?_, fun y hy => ?_⟩
      · change n ∈ passed u.log
        rw [hpassed, hn]
        simp
      · rw [set_objects_self] at hy
        cases hy
        exact hx
    obtain ⟨x, b', hx, hvx⟩ := assignMembers_self hi hv
    cases hvx
    cases b with
    | true =>
      cases hr
      exact ⟨hset x hx, fun _ => hwhole x (hx.trans ho)⟩
    | false =>
      simp only [takeOver, set_objects_self, Option.bind_some, set_set, Option.map_some, Option.some.injEq,
        Prod.mk.injEq] at hr
      obtain ⟨rfl, rfl⟩ := hr
      exact ⟨hset _ hx, fun h => absurd h (by simp)⟩
  · have howned : u.owned j = s.owned j := by
      rw [State.owned, State.owned, hother j fun he => hij he.symm]
    cases hj : u.objects j with
    | none =>
      rw [assignMembers_none hj] at hv
      cases hv
    | some o' =>
      cases assignMembers_cases hij hi hj hv with
      | threw x hx =>
        cases hr
        refine ⟨hset x hx, fun _ n hn => .inl ?_⟩
        rw [owned_set, Function.update_of_ne fun he => hij he.symm, howned, hn]
      | done x y hx hy hresource =>
        simp only [takeOver, set_objects_self, Option.bind_some, set_set,
          set_objects_ne _ _ hij, Option.map_some, Option.some.injEq, Prod.mk.injEq] at hr
        obtain ⟨rfl, rfl⟩ := hr
        rw [set_pair _ _ _ _ hij, set_comm _ _ _ hij]
        refine ⟨hsound.hand_over hij hnone rfl ?_ ?_, fun h => absurd h (by simp)⟩
        · rintro z hz he
          cases hz
          exact hresource ▸ hsound.whole j o' hj (hy ▸ he)
        · rw [owned_of hj]
          simp [engagedFor, hresource, hy]

/-! ## The other operations -/

/-- `reset` does not look at what is being handed over. -/
theorem reset_handed (s : State) (i : ObjId) (k : ℕ) :
    reset { s with handed := k } i = (reset s i).map fun t => { t with handed := k } := by
  unfold reset
  cases s.objects i with
  | none => rfl
  | some o => cases he : o.executeOnReset <;> simp [he, State.set, State.invoke]

theorem Sound.resetWith {nothrowAssign fails threw : Bool} (h : Sound s)
    (hr : resetWith nothrowAssign fails rest s i = some (t, threw)) :
    Sound t ∧ (threw = true → s.handed ∈ passed t.log) := by
  unfold UniqueResource.resetWith at hr
  rw [reset_handed] at hr
  obtain ⟨u', hu', hr⟩ := Option.bind_eq_some_iff.mp hr
  obtain ⟨u, hu, rfl⟩ := Option.map_eq_some_iff.mp hu'
  obtain ⟨hsound, hnone, hhanded, -, ⟨o, hi, ho⟩, -, -⟩ := h.reset hu
  obtain ⟨o', hi', hr⟩ := Option.map_eq_some_iff.mp hr
  obtain rfl : o = o' := Option.some.inj (hi.symm.trans hi')
  rw [← hhanded] at hr ⊢
  split at hr
  · cases hr
    -- the assignment threw: the object stays disengaged, and the handler passes the new resource on
    have hset : Sound (u.set i (some { o with resource := rest.resource })) :=
      hsound.set_same (whole_disengaged ho) (by rw [hnone]; exact engagedFor_disengaged ho)
    refine ⟨hset.make_drop (.called (.resetHandler i) o.deleter (some u.handed)
      (u.set i (some { o with resource := rest.resource })).objects)
      ⟨rfl, fun k hk => absurd hk (hset.owned_ne_handed k)⟩ rfl, fun _ => ?_⟩
    simp [State.invoke, passed]
  · cases hr
    refine ⟨hsound.make (x := some { o with resource := some u.handed, executeOnReset := true }) hnone
      (fun x hx _ => ?_) rfl, fun h => absurd h (by simp)⟩
    cases hx
    rfl

theorem Sound.swap (h : Sound s) (hr : swap s i j = some t) : Sound t := by
  obtain ⟨o, hi, hr⟩ := Option.bind_eq_some_iff.mp hr
  obtain ⟨o', hj, rfl⟩ := Option.map_eq_some_iff.mp hr
  refine ⟨?_, fun k x hk hx => ?_, h.events⟩
  · rw [owned_set, owned_set, ← owned_of hi, ← owned_of hj]
    exact h.custody.swap i j
  · by_cases hkj : k = j
    · subst hkj
      rw [set_objects_self] at hk
      cases hk
      exact h.whole i o hi hx
    · rw [set_objects_ne _ _ hkj] at hk
      by_cases hki : k = i
      · subst hki
        rw [set_objects_self] at hk
        cases hk
        exact h.whole j o' hj hx
      · rw [set_objects_ne _ _ hki] at hk
        exact h.whole k x hk hx

theorem Sound.destroy (h : Sound s) (hr : destroy s i = some t) : Sound t := by
  obtain ⟨u, hu, rfl⟩ := Option.map_eq_some_iff.mp hr
  obtain ⟨hsound, hnone, -⟩ := h.reset hu
  exact hsound.set_same (x := none) (fun x hx => by cases hx) hnone.symm

/-! ## Runs -/

/-- What an operation that threw leaves behind. -/
def Operation.FailsWell (s t : State) : Operation → Prop
  | .construct .. | .resetWith .. => s.handed ∈ passed t.log
  | .makeChecked _ _ _ invalid _ => invalid = false → s.handed ∈ passed t.log
  | .moveConstruct _ j _ _ | .moveAssign _ j _ _ => SourceWhole s t j
  | .reset _ | .release _ | .swap _ _ | .destroy _ => False

theorem Sound.execute {operation : Operation} {threw : Bool} (h : Sound s)
    (hr : execute T s operation = some (t, threw)) :
    Sound t ∧ (threw = true → operation.FailsWell s t) := by
  cases operation with
  | construct i input deleter fails =>
    simp only [UniqueResource.execute, Option.ite_none_right_eq_some, Option.some.injEq] at hr
    obtain ⟨⟨hi, hinput⟩, hr⟩ := hr
    exact h.constructTagged hinput hi hr
  | makeChecked i input deleter invalid fails =>
    simp only [UniqueResource.execute, Option.ite_none_right_eq_some, Option.some.injEq] at hr
    obtain ⟨⟨hi, hinput⟩, hr⟩ := hr
    cases invalid with
    | true => exact ⟨h.constructTagged_invalid hinput hi hr, fun _ h => absurd h (by simp)⟩
    | false =>
      obtain ⟨hsound, hpassed⟩ := h.constructTagged hinput hi hr
      exact ⟨hsound, fun hthrew _ => hpassed hthrew⟩
  | moveConstruct i j fails rest =>
    simp only [UniqueResource.execute, Option.ite_none_right_eq_some] at hr
    obtain ⟨hi, hr⟩ := hr
    cases hj : s.objects j with
    | none => simp [UniqueResource.moveConstruct, hj] at hr
    | some o => exact h.moveConstruct hi hj (moveConstruct_cases hj hr)
  | moveAssign i j fails rest => exact h.moveAssign hr
  | reset i =>
    obtain ⟨u, hu, heq⟩ := Option.map_eq_some_iff.mp hr
    cases heq
    exact ⟨(h.reset hu).1, by simp⟩
  | resetWith i nothrowAssign fails rest => exact h.resetWith hr
  | release i =>
    obtain ⟨u, hu, heq⟩ := Option.map_eq_some_iff.mp hr
    cases heq
    exact ⟨h.release hu, by simp⟩
  | swap i j =>
    obtain ⟨u, hu, heq⟩ := Option.map_eq_some_iff.mp hr
    cases heq
    exact ⟨h.swap hu, by simp⟩
  | destroy i =>
    obtain ⟨u, hu, heq⟩ := Option.map_eq_some_iff.mp hr
    cases heq
    exact ⟨h.destroy hu, by simp⟩

theorem sound_run {operations : List Operation} (hrun : run (step T) {} operations = some s) : Sound s := by
  refine run_preserves (P := Sound) (fun u operation v hu hstep => ?_) sound_start hrun
  obtain ⟨⟨w, threw⟩, hw, rfl⟩ := Option.map_eq_some_iff.mp hstep
  exact (hu.execute hw).1

theorem perm_gone (log : List Event) : (passed log ++ released log).Perm (gone log) := by
  induction log with
  | nil => exact List.Perm.refl _
  | cons event log ih =>
    cases event with
    | called site deleter resource objects =>
      cases resource with
      | none => exact ih
      | some n => exact ih.cons n
    | released i resource =>
      cases resource with
      | none => exact ih
      | some n => exact List.perm_middle.trans (ih.cons n)

/-- Each resource that was handed over belongs to one engaged object, or left once. -/
structure ReleasedOnce (s : State) : Prop where
  once : (passed s.log ++ released s.log).Nodup
  handed : ∀ n ∈ passed s.log ++ released s.log, n < s.handed
  /-- When all objects are gone, what was not released was passed to a deleter. -/
  all : (∀ i, s.objects i = none) → ∀ n < s.handed, n ∈ passed s.log ∨ n ∈ released s.log
  unique : ∀ i j n, s.owned i = some n → s.owned j = some n → i = j
  engaged : ∀ i n, s.owned i = some n → n ∉ passed s.log ∧ n ∉ released s.log
  /-- In a call only the handler of a move construction finds an engaged owner, the source. -/
  calls : ∀ event ∈ s.log, event.Sound

theorem Sound.releasedOnce (h : Sound s) : ReleasedOnce s where
  once := (perm_gone s.log).nodup_iff.mpr h.custody.nodup
  handed := fun n hn => h.custody.gone_lt n ((perm_gone s.log).mem_iff.mp hn)
  all := by
    intro hnone n hn
    -- an owner would be an object that is left
    rcases h.custody.accounted n hn with hgone | ⟨i, hi⟩
    · exact List.mem_append.mp ((perm_gone s.log).mem_iff.mpr hgone)
    · rw [State.owned, hnone i] at hi
      cases hi
  unique := h.custody.unique
  engaged := by
    intro i n hi
    have hkept : n ∉ passed s.log ++ released s.log := fun hn =>
      h.custody.kept i n hi ((perm_gone s.log).mem_iff.mp hn)
    exact ⟨fun hn => hkept (List.mem_append_left _ hn), fun hn => hkept (List.mem_append_right _ hn)⟩
  calls := h.events

/-- Whatever throws, each resource that was handed over is passed to a deleter once or was released, and
a failed operation leaves it with the source or passed. -/
theorem resources_are_released_once (T : Traits) (operations : List Operation) (s : State)
    (hrun : run (step T) {} operations = some s) :
    ReleasedOnce s ∧ ∀ operation t, execute T s operation = some (t, true) → operation.FailsWell s t :=
  have hsound := sound_run hrun
  ⟨hsound.releasedOnce, fun _ _ hr => (hsound.execute hr).2 rfl⟩

/-- The operations of one failed move construction. -/
def failedMove : List Operation :=
  [.construct 0 ⟨true, true, true, true⟩ 7 {}, .moveConstruct 1 0 { deleter := true } { resource := some 0 },
    .destroy 0]

theorem resources_are_released_once_failed_move :
    ∃ s, run (step ⟨true, true, false, false⟩) {} failedMove = some s ∧ ReleasedOnce s ∧
      passed s.log = [0] :=
  ⟨_, rfl, (resources_are_released_once ⟨true, true, false, false⟩ failedMove _ rfl).1, rfl⟩

/-- The handler of a failed move construction calls the deleter before it releases the source. -/
theorem deleter_called_before_release :
    ∃ s, run (step ⟨true, true, false, false⟩) {} failedMove = some s ∧
      ∃ deleter objects, .called (.moveHandler 0) deleter (some 0) objects ∈ s.log ∧
        engagedFor (objects 0) = some 0 :=
  ⟨_, rfl, 7, _, List.mem_cons_self, rfl⟩

end CCForge.UniqueResource
