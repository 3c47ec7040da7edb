import CCForge.Lib.Run

/-!
# unique_resource

Operations on any number of `unique_resource` objects with one resource type and one deleter type. The
resources that are handed over with ownership are numbered; a copy of a resource has its number, and
what else is in a resource member has none.

Each operation that is not marked as no-throw may throw. A deleter does not throw. The log has every
call of a deleter with the objects of that moment, and every release of an owner.
-/

namespace CCForge.UniqueResource

abbrev ObjId := ℕ

/-- The no-throw traits of the resource and the deleter type. -/
structure Traits where
  resourceMoveConstruct : Bool
  resourceMoveAssign : Bool
  deleterMoveConstruct : Bool
  deleterMoveAssign : Bool
  deriving DecidableEq, Repr

/-- The traits of the arguments of a constructor: whether the member is no-throw constructible from the
argument, and whether it is constructible from it as an lvalue. -/
structure Input where
  resourceNothrow : Bool
  resourceLvalue : Bool
  deleterNothrow : Bool
  deleterLvalue : Bool
  deriving DecidableEq, Repr

/-- The constraints of the constructor. -/
def Input.Constrained (input : Input) : Prop :=
  (input.resourceNothrow = true ∨ input.resourceLvalue = true) ∧
    (input.deleterNothrow = true ∨ input.deleterLvalue = true)

instance (input : Input) : Decidable input.Constrained := inferInstanceAs (Decidable (_ ∧ _))

/-- Which operations throw where they may. -/
structure Fails where
  resource : Bool := false
  deleter : Bool := false
  deriving DecidableEq, Repr

/-- What a member contains after it was moved from, or after an assignment to it threw. -/
structure Rest where
  resource : Option ℕ := none
  deleter : ℕ := 0
  deriving DecidableEq, Repr

structure Obj where
  resource : Option ℕ
  deleter : ℕ
  executeOnReset : Bool
  deriving DecidableEq, Repr

/-- Where a deleter is called: `reset`, and the three handlers of exceptions. -/
inductive Site where
  | reset (i : ObjId)
  | resetHandler (i : ObjId)
  | constructHandler
  | moveHandler (source : ObjId)
  deriving DecidableEq, Repr

inductive Event where
  | called (site : Site) (deleter : ℕ) (resource : Option ℕ) (objects : ObjId → Option Obj)
  | released (i : ObjId) (resource : Option ℕ)

structure State where
  objects : ObjId → Option Obj := fun _ => none
  /-- The resources handed over so far. -/
  handed : ℕ := 0
  log : List Event := []

namespace State

def set (s : State) (i : ObjId) (o : Option Obj) : State := { s with objects := Function.update s.objects i o }

/-- `std::invoke(deleter, resource)`. -/
def invoke (s : State) (site : Site) (deleter : ℕ) (resource : Option ℕ) : State :=
  { s with log := s.log ++ [.called site deleter resource s.objects] }

end State

/-- The result of an operation, and whether it threw. -/
abbrev Result := State × Bool

/-- `construct_resource_from_input`. -/
def constructResourceFromInput (input : Input) (fails : Bool) (s : State) (deleter : ℕ)
    (resource : Option ℕ) (executeOnReset : Bool) : Result :=
  if input.resourceNothrow ∨ ¬input.resourceLvalue then (s, !input.resourceNothrow && fails)
  else if fails then
    (if executeOnReset then s.invoke .constructHandler deleter resource else s, true)
  else (s, false)

/-- `construct_deleter_from_input`. -/
def constructDeleterFromInput (input : Input) (fails : Bool) (s : State) (deleter : ℕ)
    (resource : Option ℕ) (executeOnReset : Bool) : Result :=
  if input.deleterNothrow ∨ ¬input.deleterLvalue then (s, !input.deleterNothrow && fails)
  else if fails then
    (if executeOnReset then s.invoke .constructHandler deleter resource else s, true)
  else (s, false)

/-- The constructor with `construct_tag`. -/
def constructTagged (input : Input) (fails : Fails) (s : State) (i : ObjId) (deleter : ℕ)
    (resource : Option ℕ) (executeOnReset : Bool) : Result :=
  match constructResourceFromInput input fails.resource s deleter resource executeOnReset with
  | (s, true) => (s, true)
  | (s, false) =>
    match constructDeleterFromInput input fails.deleter s deleter resource executeOnReset with
    | (s, true) => (s, true)
    | (s, false) => (s.set i (some ⟨resource, deleter, executeOnReset⟩), false)

/-- The constructor from a resource and a deleter. -/
def construct (input : Input) (fails : Fails) (s : State) (i : ObjId) (deleter : ℕ) : Result :=
  constructTagged input fails { s with handed := s.handed + 1 } i deleter (some s.handed) true

/-- `make_unique_resource_checked`. An invalid resource is not handed over. -/
def makeUniqueResourceChecked (input : Input) (fails : Fails) (s : State) (i : ObjId) (deleter : ℕ)
    (invalid : Bool) : Result :=
  if invalid then constructTagged input fails s i deleter none false
  else constructTagged input fails { s with handed := s.handed + 1 } i deleter (some s.handed) true

/-- `construct_resource_from_other`, which gives the new resource member. -/
def constructResourceFromOther (T : Traits) (fails : Bool) (rest : Rest) (s : State) (j : ObjId)
    (other : Obj) : State × Option (Option ℕ) :=
  if T.resourceMoveConstruct then (s.set j (some { other with resource := rest.resource }), some other.resource)
  else if fails then (s, none)
  else (s, some other.resource)

/-- `construct_deleter_from_other`, which gives the new deleter member. -/
def constructDeleterFromOther (T : Traits) (fails : Bool) (rest : Rest) (s : State) (j : ObjId)
    (other : Obj) (resource : Option ℕ) : State × Option ℕ :=
  if T.deleterMoveConstruct then (s.set j (some { other with deleter := rest.deleter }), some other.deleter)
  else if fails then
    if T.resourceMoveConstruct then
      if other.executeOnReset then
        let s := s.invoke (.moveHandler j) other.deleter resource
        (s.set j (some { other with executeOnReset := false }), none)
      else (s, none)
    else (s, none)
  else (s, some other.deleter)

/-- The move constructor. -/
def moveConstruct (T : Traits) (fails : Fails) (rest : Rest) (s : State) (i j : ObjId) : Option Result :=
  (s.objects j).bind fun other =>
    match constructResourceFromOther T fails.resource rest s j other with
    | (s, none) => some (s, true)
    | (s, some resource) => (s.objects j).bind fun other =>
      match constructDeleterFromOther T fails.deleter rest s j other resource with
      | (s, none) => some (s, true)
      | (s, some deleter) => (s.objects j).map fun other =>
        ((s.set j (some { other with executeOnReset := false })).set i
          (some ⟨resource, deleter, other.executeOnReset⟩), false)

/-- `reset`. -/
def reset (s : State) (i : ObjId) : Option State :=
  (s.objects i).map fun o =>
    if o.executeOnReset then
      (s.set i (some { o with executeOnReset := false })).invoke (.reset i) o.deleter o.resource
    else s

/-- `reset` with a resource. -/
def resetWith (nothrowAssign fails : Bool) (rest : Rest) (s : State) (i : ObjId) : Option Result :=
  (reset { s with handed := s.handed + 1 } i).bind fun t =>
    (t.objects i).map fun o =>
      if !nothrowAssign && fails then
        ((t.set i (some { o with resource := rest.resource })).invoke (.resetHandler i) o.deleter
          (some s.handed), true)
      else (t.set i (some { o with resource := some s.handed, executeOnReset := true }), false)

/-- `resource_ = std::move(other.resource_)`. -/
def moveResource (rest : Rest) (s : State) (i j : ObjId) : Option State :=
  (s.objects j).bind fun other => (s.objects i).bind fun o =>
    let s := s.set i (some { o with resource := other.resource })
    (s.objects j).map fun other => s.set j (some { other with resource := rest.resource })

/-- `deleter_ = std::move(other.deleter_)`. -/
def moveDeleter (rest : Rest) (s : State) (i j : ObjId) : Option State :=
  (s.objects j).bind fun other => (s.objects i).bind fun o =>
    let s := s.set i (some { o with deleter := other.deleter })
    (s.objects j).map fun other => s.set j (some { other with deleter := rest.deleter })

/-- `resource_ = other.resource_`. -/
def copyResource (fails : Bool) (rest : Rest) (s : State) (i j : ObjId) : Option Result :=
  (s.objects j).bind fun other => (s.objects i).map fun o =>
    if fails then (s.set i (some { o with resource := rest.resource }), true)
    else (s.set i (some { o with resource := other.resource }), false)

/-- `deleter_ = other.deleter_`. -/
def copyDeleter (fails : Bool) (rest : Rest) (s : State) (i j : ObjId) : Option Result :=
  (s.objects j).bind fun other => (s.objects i).map fun o =>
    if fails then (s.set i (some { o with deleter := rest.deleter }), true)
    else (s.set i (some { o with deleter := other.deleter }), false)

/-- The next statement, where the last one did not throw. -/
def andThen (r : Option Result) (next : State → Option Result) : Option Result :=
  r.bind fun
    | (s, true) => some (s, true)
    | (s, false) => next s

/-- `execute_on_reset_ = std::exchange(other.execute_on_reset_, false)`. -/
def takeOver (s : State) (i j : ObjId) : Option State :=
  (s.objects j).bind fun other =>
    let s := s.set j (some { other with executeOnReset := false })
    (s.objects i).map fun o => s.set i (some { o with executeOnReset := other.executeOnReset })

/-- The members are assigned in an order that leaves a source whole when a copy throws. -/
def assignMembers (T : Traits) (fails : Fails) (rest : Rest) (s : State) (i j : ObjId) : Option Result :=
  if T.resourceMoveAssign then
    if T.deleterMoveAssign then
      (moveResource rest s i j).bind fun s => (moveDeleter rest s i j).map (·, false)
    else
      andThen (copyDeleter fails.deleter rest s i j) fun s => (moveResource rest s i j).map (·, false)
  else
    if T.deleterMoveAssign then
      andThen (copyResource fails.resource rest s i j) fun s => (moveDeleter rest s i j).map (·, false)
    else
      andThen (copyResource fails.resource rest s i j) fun s => copyDeleter fails.deleter rest s i j

/-- Move assignment. -/
def moveAssign (T : Traits) (fails : Fails) (rest : Rest) (s : State) (i j : ObjId) : Option Result :=
  (reset s i).bind fun s =>
    andThen (assignMembers T fails rest s i j) fun s => (takeOver s i j).map (·, false)

/-- `release`. -/
def release (s : State) (i : ObjId) : Option State :=
  (s.objects i).map fun o =>
    let t := s.set i (some { o with executeOnReset := false })
    if o.executeOnReset then { t with log := t.log ++ [.released i o.resource] } else t

/-- `swap`. -/
def swap (s : State) (i j : ObjId) : Option State :=
  (s.objects i).bind fun o => (s.objects j).map fun other => (s.set i (some other)).set j (some o)

/-- The destructor. -/
def destroy (s : State) (i : ObjId) : Option State := (reset s i).map fun s => s.set i none

inductive Operation where
  | construct (i : ObjId) (input : Input) (deleter : ℕ) (fails : Fails)
  | makeChecked (i : ObjId) (input : Input) (deleter : ℕ) (invalid : Bool) (fails : Fails)
  | moveConstruct (i j : ObjId) (fails : Fails) (rest : Rest)
  | moveAssign (i j : ObjId) (fails : Fails) (rest : Rest)
  | reset (i : ObjId)
  | resetWith (i : ObjId) (nothrowAssign fails : Bool) (rest : Rest)
  | release (i : ObjId)
  | swap (i j : ObjId)
  | destroy (i : ObjId)
  deriving DecidableEq, Repr

/-- A new object is made where none is, from arguments that meet the constraints. -/
def execute (T : Traits) (s : State) : Operation → Option Result
  | .construct i input deleter fails =>
    if s.objects i = none ∧ input.Constrained then some (construct input fails s i deleter) else none
  | .makeChecked i input deleter invalid fails =>
    if s.objects i = none ∧ input.Constrained then
      some (makeUniqueResourceChecked input fails s i deleter invalid)
    else none
  | .moveConstruct i j fails rest => if s.objects i = none then moveConstruct T fails rest s i j else none
  | .moveAssign i j fails rest => moveAssign T fails rest s i j
  | .reset i => (reset s i).map (·, false)
  | .resetWith i nothrowAssign fails rest => resetWith nothrowAssign fails rest s i
  | .release i => (release s i).map (·, false)
  | .swap i j => (swap s i j).map (·, false)
  | .destroy i => (destroy s i).map (·, false)

def step (T : Traits) (s : State) (operation : Operation) : Option State :=
  (execute T s operation).map Prod.fst

end CCForge.UniqueResource
