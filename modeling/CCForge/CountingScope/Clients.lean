import CCForge.CountingScope.Guarantees

/-!
# The clients of a counting scope

`spawn` and `associate` keep an association of a scope next to an operation. The state of a
spawned operation belongs to the call that launches it and to the operation, and goes with the
last reference; the operation of an associated sender is destroyed by its client. Each step is
a step of the scope or leaves the scope as it is.

An association has the name of its client. The fields `destructions` and `deallocations` record
what happened to a state of `spawn`.
-/

namespace CCForge.CountingScope.Clients

inductive OpState where
  | unborn
  | connected
  | started
  | destroyed
  deriving DecidableEq, Repr

/-- Where the thread in `__launch` is. -/
inductive Launcher where
  | connecting
  /-- Connecting threw. The association is destroyed, and the memory after it. -/
  | unwinding
  | freeing
  | thrown
  | running
  | choosing
  | inStart
  /-- `__complete` in place of the operation, which is not started. -/
  | completing
  | releasing
  | returned
  deriving DecidableEq, Repr

namespace Launcher

def constructed : Launcher → Bool
  | connecting | unwinding | freeing | thrown => false
  | _ => true

/-- Between `__add_ref` and the last `__release` of `__run`. -/
def hasRef : Launcher → Bool
  | choosing | inStart | completing | releasing => true
  | _ => false

def chosen : Launcher → Bool
  | inStart | completing | releasing | returned => true
  | _ => false

end Launcher

/-- Where the completion of the operation is. -/
inductive Completer (n : ℕ) where
  | waiting
  | releasing (thread : Fin n)
  | returned
  deriving DecidableEq, Repr

def Completer.hasRef {n : ℕ} : Completer n → Bool
  | waiting | releasing _ => true
  | returned => false

/-- What `__release` does after the last reference, and where its thread is. -/
inductive Teardown (n : ℕ) where
  | pending
  | destroy (thread : Fin n)
  | deallocate (thread : Fin n)
  | disassociate (thread : Fin n)
  | ended
  deriving DecidableEq, Repr

namespace Teardown

variable {n : ℕ}

def destroyed : Teardown n → Bool
  | pending | destroy _ => false
  | _ => true

def freed : Teardown n → Bool
  | disassociate _ | ended => true
  | _ => false

end Teardown

/-- `__state` of `spawn`. `engaged` is what `try_associate` returned, `holds` says that the
association is still there. -/
structure Spawned (n : ℕ) where
  thread : Fin n
  engaged : Bool
  holds : Bool := engaged
  launcher : Launcher := .connecting
  completer : Completer n := .waiting
  teardown : Teardown n := .pending
  refs : ℕ := 1
  op : OpState := .unborn
  allocated : Bool := true
  destructions : ℕ := 0
  deallocations : ℕ := 0

/-- `__release` up to the decision who destroys the state. -/
def Spawned.release {n : ℕ} (w : Spawned n) (t : Fin n) : Spawned n :=
  { w with refs := w.refs - 1, teardown := if w.refs = 1 then .destroy t else w.teardown }

/-- Where a sender of `associate` is, or the operation that it was connected to. -/
inductive Stage where
  | sender
  | connected
  | started
  | completed
  /-- The inner operation is destroyed, the association is next. -/
  | dropping
  | gone
  deriving DecidableEq, Repr

/-- `__sender` and `__op` of `associate`. `inner` says that the inner operation exists. -/
structure Associated where
  holds : Bool
  stage : Stage := .sender
  inner : Bool := false
  deriving DecidableEq, Repr

inductive Client (n : ℕ) where
  | spawned (state : Spawned n)
  | associated (state : Associated)

def Client.holds {n : ℕ} : Client n → Bool
  | spawned w => w.holds
  | associated w => w.holds

/-- An operation exists that the association protects. -/
def Client.alive {n : ℕ} : Client n → Bool
  | spawned w => w.engaged && (w.op == .connected || w.op == .started)
  | associated w => w.inner

structure State (n : ℕ) where
  scope : CountingScope.State n
  clients : AssociationId → Option (Client n) := fun _ => none

inductive Label (n : ℕ) where
  | scope (label : CountingScope.Label n)
  | spawn (thread : Fin n) (client : AssociationId)
  | connect (client : AssociationId) (throws : Bool)
  | launch (client : AssociationId)
  | complete (thread : Fin n) (client : AssociationId)
  | release (client : AssociationId)
  | tear (client : AssociationId)
  /-- A sender of `associate` is made or copied. -/
  | associate (client : AssociationId)
  | connectInner (thread : Fin n) (client : AssociationId) (throws : Bool)
  | startInner (client : AssociationId)
  | completeInner (client : AssociationId)
  | destroy (thread : Fin n) (client : AssociationId)
  deriving DecidableEq, Repr

namespace State

variable {n : ℕ}

def setClient (s : State n) (k : AssociationId) (c : Client n) : State n :=
  { s with clients := Function.update s.clients k (some c) }

/-- The label is about the association of a client. -/
def owns (s : State n) : CountingScope.Label n → Bool
  | .tryAssociate a | .release _ a => (s.clients a).isSome
  | _ => false

/-- `try_associate` for a new client. -/
def tryAssociate (s : State n) (k : AssociationId) (c : Bool → Client n) : Option (State n) :=
  if (s.clients k).isNone then
    (CountingScope.step s.scope (.tryAssociate k)).map fun scope =>
      { s with scope := scope }.setClient k (c s.scope.shared.tryAssociate.2)
  else none

/-- The association of a client is destroyed, which leaves `c`. -/
def disassociate (s : State n) (t : Fin n) (k : AssociationId) (holds : Bool) (c : Client n) :
    Option (State n) :=
  if holds then
    (CountingScope.step s.scope (.release t k)).map fun scope =>
      { s with scope := scope }.setClient k c
  else some (s.setClient k c)

/-- The next step of `__launch`. -/
def launch (s : State n) (k : AssociationId) (w : Spawned n) : Option (State n) :=
  match w.launcher with
  | .connecting | .thrown | .returned => none
  | .unwinding =>
    s.disassociate w.thread k w.holds (.spawned { w with launcher := .freeing, holds := false })
  | .freeing =>
    some (s.setClient k (.spawned { w with
      launcher := .thrown, allocated := false, deallocations := w.deallocations + 1 }))
  | .running =>
    some (s.setClient k (.spawned { w with launcher := .choosing, refs := w.refs + 1 }))
  | .choosing =>
    some (s.setClient k (.spawned
      (if w.holds then { w with launcher := .inStart, op := .started }
      else { w with launcher := .completing, completer := .releasing w.thread })))
  | .inStart => some (s.setClient k (.spawned { w with launcher := .releasing }))
  | .completing =>
    if w.completer = .returned then
      some (s.setClient k (.spawned { w with launcher := .releasing }))
    else none
  | .releasing =>
    some (s.setClient k (.spawned { w.release w.thread with launcher := .returned }))

/-- The next step after the last reference. -/
def tear (s : State n) (k : AssociationId) (w : Spawned n) : Option (State n) :=
  match w.teardown with
  | .pending | .ended => none
  | .destroy t =>
    some (s.setClient k (.spawned { w with
      op := .destroyed, destructions := w.destructions + 1, teardown := .deallocate t }))
  | .deallocate t =>
    some (s.setClient k (.spawned { w with
      allocated := false, deallocations := w.deallocations + 1, teardown := .disassociate t }))
  | .disassociate t =>
    s.disassociate t k w.holds (.spawned { w with holds := false, teardown := .ended })

/-- The steps of a state of `spawn`. -/
def stepSpawned (s : State n) (k : AssociationId) (w : Spawned n) : Label n → Option (State n)
  | .connect _ throws =>
    if w.launcher = .connecting then
      some (s.setClient k (.spawned
        (if throws then { w with launcher := .unwinding }
        else { w with launcher := .running, op := .connected })))
    else none
  | .launch _ => s.launch k w
  | .complete t _ =>
    if w.op = .started ∧ w.completer = .waiting then
      some (s.setClient k (.spawned { w with completer := .releasing t }))
    else none
  | .release _ =>
    match w.completer with
    | .releasing t => some (s.setClient k (.spawned { w.release t with completer := .returned }))
    | _ => none
  | .tear _ => s.tear k w
  | _ => none

/-- The steps of a sender of `associate` and of its operation. -/
def stepAssociated (s : State n) (k : AssociationId) (w : Associated) :
    Label n → Option (State n)
  | .connectInner t _ throws =>
    if w.stage = .sender then
      if w.holds && throws then
        s.disassociate t k w.holds (.associated { w with stage := .gone, holds := false })
      else some (s.setClient k (.associated { w with stage := .connected, inner := w.holds }))
    else none
  | .startInner _ =>
    if w.stage = .connected then
      some (s.setClient k (.associated { w with
        stage := if w.holds then .started else .completed }))
    else none
  | .completeInner _ =>
    if w.stage = .started then some (s.setClient k (.associated { w with stage := .completed }))
    else none
  | .destroy t _ =>
    match w.stage with
    | .sender | .dropping =>
      s.disassociate t k w.holds (.associated { w with stage := .gone, holds := false })
    | .connected | .completed =>
      some (s.setClient k (.associated { w with stage := .dropping, inner := false }))
    | .started | .gone => none
  | _ => none

/-- The steps of the client `k`. -/
def stepClient (s : State n) (k : AssociationId) (l : Label n) : Option (State n) :=
  (s.clients k).bind fun c =>
    match c with
    | .spawned w => s.stepSpawned k w l
    | .associated w => s.stepAssociated k w l

end State

variable {n : ℕ}

def step (s : State n) : Label n → Option (State n)
  | .scope l =>
    if s.owns l then none
    else (CountingScope.step s.scope l).map fun scope => { s with scope := scope }
  | .spawn t k => s.tryAssociate k fun engaged => .spawned { thread := t, engaged := engaged }
  | .associate k => s.tryAssociate k fun engaged => .associated { holds := engaged }
  | .connect k throws => s.stepClient k (.connect k throws)
  | .launch k => s.stepClient k (.launch k)
  | .complete t k => s.stepClient k (.complete t k)
  | .release k => s.stepClient k (.release k)
  | .tear k => s.stepClient k (.tear k)
  | .connectInner t k throws => s.stepClient k (.connectInner t k throws)
  | .startInner k => s.stepClient k (.startInner k)
  | .completeInner k => s.stepClient k (.completeInner k)
  | .destroy t k => s.stepClient k (.destroy t k)

/-- A scope before anything is spawned. -/
def Initial (s : State n) : Prop := ∃ scope, CountingScope.Initial scope ∧ s = { scope := scope }

end CCForge.CountingScope.Clients
