import Mathlib.Data.List.Nodup
import CCForge.StopSource.Life

/-!
# The invariant of a stop source

`Request` describes the one request that won and the list; `Lives` reads the life of
each callback off the state. A step of the constructor, the request or the destructor
of one callback leaves the lives of all others alone.
-/

namespace CCForge.StopSource

namespace Frame

/-- The frames of a `request_stop` that set the flag. -/
def requests : Frame → Bool
  | .detaching _ _ | .invoking _ | .chosen _ _ | .running _ _ | .finishing _ _ => true
  | _ => false

def builds (c : CallbackId) : Frame → Bool
  | .constructing d | .inline d | .runningInline d => d = c
  | _ => false

def destroys (c : CallbackId) : Frame → Bool
  | .removing d | .cancelling d | .waiting d => d = c
  | _ => false

/-- The callbacks that a request still has to deal with. -/
def line : Frame → List CallbackId
  | .detaching raw head => head ++ raw
  | .invoking head => head
  | .chosen c head | .running c head | .finishing c head => c :: head
  | _ => []

/-- Whether the frame is the one that holds the source mutex. -/
def locks : Frame → Bool
  | .detaching _ _ => true
  | _ => false

/-- Where the frame of a request has callback `c`. -/
def place (c : CallbackId) : Frame → Place
  | .detaching raw head => if c ∈ raw then .raw else if c ∈ head then .queued else .outside
  | .invoking head => if c ∈ head then .queued else .outside
  | .chosen d head => if c = d then .chosen else if c ∈ head then .queued else .outside
  | .running d head => if c = d then .running else if c ∈ head then .queued else .outside
  | .finishing d head => if c = d then .finishing else if c ∈ head then .queued else .outside
  | _ => .outside

end Frame

def lineOf (o : Option (ThreadId × Frame)) : List CallbackId :=
  match o with
  | some (_, f) => f.line
  | none => []

def placeOf (callbacks : List CallbackId) (o : Option (ThreadId × Frame)) (c : CallbackId) :
    Place :=
  if c ∈ callbacks then .listed
  else match o with
    | some (_, f) => f.place c
    | none => .outside

/-- The request under way `o`, the flag, the mutex and the list. -/
structure Request (s : State) (o : Option (ThreadId × Frame)) : Prop where
  sole : Sole Frame.requests s.stack o
  mtx : ∀ t, s.mtx = some t ↔ ∃ f, o = some (t, f) ∧ f.locks = true
  requester : ∀ t f, o = some (t, f) → s.requester = some t
  stop : s.stopRequested = s.requester.isSome
  emptied : s.stopRequested = true → s.callbacks = []
  won : s.results.count true + o.toList.length = if s.stopRequested then 1 else 0
  lost : s.results ≠ [] → s.stopRequested = true
  nodup : (s.callbacks ++ lineOf o).Nodup

/-- The life of callback `c` in a state. -/
def Lives (s : State) (o : Option (ThreadId × Frame)) (c : CallbackId) : Prop :=
  ∃ b d, Sole (Frame.builds c) s.stack b ∧ Sole (Frame.destroys c) s.stack d ∧
    Sound s.requester c ⟨s.callback c, placeOf s.callbacks o c, b, d⟩

structure Inv (s : State) (o : Option (ThreadId × Frame)) : Prop where
  request : Request s o
  lives : ∀ c, Lives s o c

theorem inv_initial : Inv {} none := by
  refine ⟨⟨?_, ?_, ?_, ?_, ?_, ?_, ?_, ?_⟩, fun c => ⟨none, none, ?_, ?_, Sound.initial⟩⟩ <;>
    simp [Sole, lineOf]

variable {s s' : State} {o o' : Option (ThreadId × Frame)} {t : ThreadId} {c : CallbackId}
  {new rest : List Frame} {f g : Frame}

/-! ## One callback at a time -/

/-- A step of thread `t` that is no step of the constructor or the destructor of `c`. -/
theorem Lives.keep (h : Lives s o c) (hs : s'.stack = Function.update s.stack t new)
    (hb : new.filter (Frame.builds c) = (s.stack t).filter (Frame.builds c))
    (hd : new.filter (Frame.destroys c) = (s.stack t).filter (Frame.destroys c))
    (hv : ∀ b d, Sound s.requester c ⟨s.callback c, placeOf s.callbacks o c, b, d⟩ →
      Sound s'.requester c ⟨s'.callback c, placeOf s'.callbacks o' c, b, d⟩) : Lives s' o' c := by
  obtain ⟨b, d, hsb, hsd, hv0⟩ := h
  refine ⟨b, d, ?_, ?_, hv b d hv0⟩
  · rw [hs]
    exact hsb.keep hb
  · rw [hs]
    exact hsd.keep hd

theorem Lives.other (h : Lives s o c) (hs : s'.stack = Function.update s.stack t new)
    (hb : new.filter (Frame.builds c) = (s.stack t).filter (Frame.builds c))
    (hd : new.filter (Frame.destroys c) = (s.stack t).filter (Frame.destroys c))
    (hq : s'.requester = s.requester) (hc : s'.callback c = s.callback c)
    (hp : placeOf s'.callbacks o' c = placeOf s.callbacks o c) : Lives s' o' c := by
  refine h.keep hs hb hd fun b d hv => ?_
  rw [hq, hc, hp]
  exact hv

/-- A step of the constructor of `c` on thread `t`, which goes on with `g`. -/
theorem Lives.build (h : Lives s o c) (htop : s.stack t = f :: rest) (hf : f.builds c = true)
    (hg : g.builds c = true) (hdf : f.destroys c = false) (hdg : g.destroys c = false)
    (hs : s'.stack = Function.update s.stack t (g :: rest))
    (hv : ∀ d, Sound s.requester c ⟨s.callback c, placeOf s.callbacks o c, some (t, f), d⟩ →
      Sound s'.requester c ⟨s'.callback c, placeOf s'.callbacks o' c, some (t, g), d⟩) :
    Lives s' o' c := by
  obtain ⟨b, d, hsb, hsd, hv0⟩ := h
  obtain ⟨rfl, hrest⟩ := hsb.of_top htop hf
  refine ⟨some (t, g), d, ?_, ?_, hv d hv0⟩
  · rw [hs]
    refine hsb.own (fun u hu => ownedBy_other hu f) ?_
    rw [List.filter_cons_of_pos hg, hrest]
  · rw [hs]
    refine hsd.keep ?_
    rw [htop, List.filter_cons_of_neg (by simp [hdg]), List.filter_cons_of_neg (by simp [hdf])]

/-- The constructor of `c` returns. -/
theorem Lives.built (h : Lives s o c) (htop : s.stack t = f :: rest) (hf : f.builds c = true)
    (hdf : f.destroys c = false) (hs : s'.stack = Function.update s.stack t rest)
    (hv : ∀ d, Sound s.requester c ⟨s.callback c, placeOf s.callbacks o c, some (t, f), d⟩ →
      Sound s'.requester c ⟨s'.callback c, placeOf s'.callbacks o' c, none, d⟩) :
    Lives s' o' c := by
  obtain ⟨b, d, hsb, hsd, hv0⟩ := h
  obtain ⟨rfl, hrest⟩ := hsb.of_top htop hf
  refine ⟨none, d, ?_, ?_, hv d hv0⟩
  · rw [hs]
    exact hsb.disown (fun u hu => ownedBy_other hu f) hrest
  · rw [hs]
    refine hsd.keep ?_
    rw [htop, List.filter_cons_of_neg (by simp [hdf])]

theorem Lives.destroy (h : Lives s o c) (htop : s.stack t = f :: rest) (hf : f.destroys c = true)
    (hg : g.destroys c = true) (hbf : f.builds c = false) (hbg : g.builds c = false)
    (hs : s'.stack = Function.update s.stack t (g :: rest))
    (hv : ∀ b, Sound s.requester c ⟨s.callback c, placeOf s.callbacks o c, b, some (t, f)⟩ →
      Sound s'.requester c ⟨s'.callback c, placeOf s'.callbacks o' c, b, some (t, g)⟩) :
    Lives s' o' c := by
  obtain ⟨b, d, hsb, hsd, hv0⟩ := h
  obtain ⟨rfl, hrest⟩ := hsd.of_top htop hf
  refine ⟨b, some (t, g), ?_, ?_, hv b hv0⟩
  · rw [hs]
    refine hsb.keep ?_
    rw [htop, List.filter_cons_of_neg (by simp [hbg]), List.filter_cons_of_neg (by simp [hbf])]
  · rw [hs]
    refine hsd.own (fun u hu => ownedBy_other hu f) ?_
    rw [List.filter_cons_of_pos hg, hrest]

/-- The destructor of `c` returns; the frame of a constructor that it interrupted is
still below it. -/
theorem Lives.destroyed (h : Lives s o c) (htop : s.stack t = f :: rest)
    (hf : f.destroys c = true) (hbf : f.builds c = false)
    (hs : s'.stack = Function.update s.stack t rest)
    (hv : ∀ b, (b ≠ none → .runningInline c ∈ rest) →
      Sound s.requester c ⟨s.callback c, placeOf s.callbacks o c, b, some (t, f)⟩ →
      Sound s'.requester c ⟨s'.callback c, placeOf s'.callbacks o' c, b, none⟩) :
    Lives s' o' c := by
  obtain ⟨b, d, hsb, hsd, hv0⟩ := h
  obtain ⟨rfl, hrest⟩ := hsd.of_top htop hf
  have hinside : b ≠ none → .runningInline c ∈ rest := by
    intro hb
    have hbuild := (hv0.dtorBuild t f rfl).resolve_left hb
    have hfilter := hsb t
    dsimp only at hbuild
    rw [hbuild, ownedBy_self, htop, List.filter_cons_of_neg (by simp [hbf])] at hfilter
    have hmem : Frame.runningInline c ∈ rest.filter (Frame.builds c) := by rw [hfilter]; simp
    exact (List.mem_filter.mp hmem).1
  refine ⟨b, none, ?_, ?_, hv b hinside hv0⟩
  · rw [hs]
    refine hsb.keep ?_
    rw [htop, List.filter_cons_of_neg (by simp [hbf])]
  · rw [hs]
    exact hsd.disown (fun u hu => ownedBy_other hu f) hrest

end CCForge.StopSource
