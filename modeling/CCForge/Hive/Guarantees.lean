import CCForge.Hive.Calls
import CCForge.Hive.TestInvariants

/-!
# What a program can rely on

The invariant, the exactness of traversal and the refinement of sequences with stable
handles, in every state that a program can reach.
-/

namespace CCForge.Hive

open World Effect

variable {α : Type} {env : Env α} {w w₀ : World α} {calls : List (Call α)}

/-! ## A program to try things on -/

/-- Every hive of the program may have blocks of two elements. -/
def exampleStore : World ℕ where
  block _ := ⟨0, 0, 0, none, fun _ => 0, fun _ => .raw⟩
  blockControl _ := 0
  order _ := 0
  active _ := false
  inAvailable _ := false
  activeLinks := ⟨fun _ => none, fun _ => none⟩
  availableLinks := ⟨fun _ => none, fun _ => none⟩
  reservedNext _ := none
  control _ := { owner := .rebuilt }
  container _ := { alloc := ⟨1000, 1000, 1000⟩, limits := ⟨2, 2⟩ }
  heap _ := false
  nextBlock := 0
  nextControl := 0
  calls := 0

/-- The call number `n` throws. -/
def exampleEnv (n : ℕ) : Env ℕ where
  staticMaxSize := 1000
  pocs := false
  moved _ := 0
  partlyMoved _ := 0
  throws k := k = n
  uninitialised _ _ := 7

theorem exampleStart (n : ℕ) : Start (exampleEnv n) exampleStore := ⟨fun _ => rfl, fun _ => by rfl⟩

/-- Two elements, and a rebuild with blocks of one element. -/
def exampleCalls : List (Call ℕ) := [.emplace 0 5, .emplace 0 7, .reshape 0 ⟨1, 1⟩]

/-- The store after these calls. -/
def exampleEnd (n : ℕ) : World ℕ :=
  exampleCalls.foldl (fun w c => after (c.perform (exampleEnv n)) w) exampleStore

theorem exampleRun (n : ℕ) : run (step (exampleEnv n)) exampleStore exampleCalls = some (exampleEnd n) :=
  rfl

theorem reachable_of_run (hs : Start env w₀) (hr : run (step env) w₀ calls = some w) :
    Reachable (step env) (Start env) w := ⟨w₀, hs, calls, hr⟩

/-! ## The invariant -/

/-- After every call, also one that threw, every hive is in order and passes its own
self-check. -/
theorem hive_invariants (hr : Reachable (step env) (Start env) w) (n : ℕ) :
    w.testInvariants (.named n) = true ∧
      ∀ c, (w.container (.named n)).control = some c → ∃ S, HiveOk w (.named n) c S :=
  ⟨(reachable_settled hr).inv.testInvariants _, fun c hc => (reachable_settled hr).inv _ c hc⟩

theorem hive_invariants_interrupted :
    (exampleEnd 19).testInvariants (.named 0) = true ∧
      ((exampleEnd 19).container (.named 0)).control = some 0 :=
  ⟨(hive_invariants (reachable_of_run (exampleStart 19) (exampleRun 19)) 0).1, by decide +kernel⟩

/-! ## Traversal -/

/-- `operator++` and `operator--` visit the live slots of the active blocks, in order. -/
theorem hive_traversal (hr : Reachable (step env) (Start env) w) (n : ℕ) :
    TraversalExact w (.named n) :=
  (reachable_settled hr).inv.traversalExact _

theorem hive_traversal_interrupted :
    TraversalExact (exampleEnd 19) (.named 0) ∧
      (exampleEnd 19).positions (.named 0) = [(0, 0), (0, 1)] :=
  ⟨hive_traversal (reachable_of_run (exampleStart 19) (exampleRun 19)) 0, by decide +kernel⟩

/-! ## Stable handles -/

/-- The values that iteration reads. -/
theorem World.Inv.read_eq (hi : Inv w) (h : HiveId) :
    ((w.positions h).map iteratorAt).filterMap w.value = (w.elements h).map Prod.snd := by
  have hvalue : ∀ l : List (Handle × α), (∀ e ∈ l, e ∈ w.elements h) →
      ((l.map Prod.fst).map iteratorAt).filterMap w.value = l.map Prod.snd := by
    intro l
    induction l with
    | nil =>
      intro _
      rfl
    | cons e l ih =>
      intro hl
      have he : w.value (iteratorAt e.1) = some e.2 := hi.value_eq (hl e List.mem_cons_self)
      simp only [List.map_cons, List.filterMap_cons_some he]
      rw [ih fun x hx => hl x (List.mem_cons_of_mem e hx)]
  rw [← hi.elements_fst h]
  exact hvalue _ fun _ he => he

/-- The account of a history: what has been inserted and not yet erased. -/
def ledger [DecidableEq α] (events : List (SeqEvent ℕ Handle α)) : ℕ → Multiset α :=
  events.foldl SeqEvent.account fun _ => 0

/-- No call of the run erases the element at `p`, or gives new handles to its hive. -/
def Spared (env : Env α) (p : Handle) : World α → List (Call α) → Prop
  | _, [] => True
  | w, c :: calls => (event env w c).Spares (contents w) p ∧
      Spared env p (after (c.perform env) w) calls

theorem step_some {c : Call α} {w' : World α} (h : step env w c = some w') :
    c.valid w = true ∧ w' = after (c.perform env) w := by
  unfold step at h
  split at h
  · next hv =>
    cases h
    exact ⟨hv, rfl⟩
  · exact absurd h (by simp)

theorem run_account [DecidableEq α] {w' : World α} (hs : Settled w)
    (hr : run (step env) w calls = some w') (hc : ∀ e ∈ history env w calls, e.Complete) :
    SeqEvent.values (contents w') =
      (history env w calls).foldl SeqEvent.account (SeqEvent.values (contents w)) := by
  induction calls generalizing w with
  | nil =>
    cases hr
    rfl
  | cons c calls ih =>
    obtain ⟨u, hu, hr⟩ := run_cons hr
    obtain ⟨hv, rfl⟩ := step_some hu
    have hstep : Stepped env w c := step_stepped hs hv
    rw [history, List.foldl_cons, ← hstep.effect.account (hc _ List.mem_cons_self)]
    exact ih hstep.settled hr fun e he => hc e (List.mem_cons_of_mem _ he)

theorem run_keeps {w' : World α} {p : Handle} {v : α} (hs : Settled w)
    (hr : run (step env) w calls = some w') (hsp : Spared env p w calls) {n : ℕ}
    (hp : (p, v) ∈ w.elements (.named n)) : ∃ m, (p, v) ∈ w'.elements (.named m) := by
  induction calls generalizing w n with
  | nil =>
    cases hr
    exact ⟨n, hp⟩
  | cons c calls ih =>
    obtain ⟨u, hu, hr⟩ := run_cons hr
    obtain ⟨hv, rfl⟩ := step_some hu
    have hstep : Stepped env w c := step_stepped hs hv
    obtain ⟨m, hm⟩ := hstep.effect.keeps (A := contents w) hp hsp.1
    exact ih hstep.settled hr hsp.2 hm

/-- One live position more, and all others as they were. -/
def PositionAdded (w w' : World α) (n : ℕ) (v : α) (it : Iterator) : Prop :=
  ∃ p l₁ l₂, it = iteratorAt p ∧ p ∉ w.positions (.named n) ∧
    w.elements (.named n) = l₁ ++ l₂ ∧ w'.elements (.named n) = l₁ ++ (p, v) :: l₂ ∧
    w'.size (.named n) = w.size (.named n) + 1 ∧
    ∀ m, m ≠ n → w'.elements (.named m) = w.elements (.named m)

/-- One live position less, and all others as they were. -/
def PositionRemoved (w w' : World α) (n : ℕ) (p : Handle) : Prop :=
  ∃ v l₁ l₂, w.elements (.named n) = l₁ ++ (p, v) :: l₂ ∧ w'.elements (.named n) = l₁ ++ l₂ ∧
    w.size (.named n) = w'.size (.named n) + 1 ∧
    ∀ m, m ≠ n → w'.elements (.named m) = w.elements (.named m)

theorem positionAdded_of_ok (hs : Settled w) {n : ℕ} {v : α} {it : Iterator}
    (ho : outcome ((Call.emplace n v).perform env) w = .ok (some it)) :
    PositionAdded w (after ((Call.emplace n v).perform env) w) n v it := by
  have he : Emplaced w (after ((Call.emplace n v).perform env) w) (.named n) v it := by
    obtain ⟨it', hit, he⟩ := (emplace_ends env hs n v).of_ok ho
    cases hit
    exact he
  obtain ⟨p, l₁, l₂, hit, hp, hold, hnew⟩ := he.fresh
  refine ⟨p, l₁, l₂, hit, by rw [← hs.inv.elements_fst]; exact hp, hold, hnew, ?_,
    fun m hm => he.touches.elements _ (by simpa using hm)⟩
  rw [he.touches.inv.size_eq, hs.inv.size_eq, hold, hnew]
  simp only [List.length_append, List.length_cons]
  omega

theorem positionRemoved_of_live (hs : Settled w) {n : ℕ} {p : Handle} (hp : p ∈ w.positions (.named n)) :
    PositionRemoved w (after ((Call.erase n (iteratorAt p)).perform env) w) n p := by
  obtain ⟨ht, v, l₁, l₂, hold, hnew, -⟩ := erase_spec hs.inv hp
  refine ⟨v, l₁, l₂, hold, hnew, ?_, fun m hm => ht.elements _ (by simpa using hm)⟩
  have hsize := ht.inv.size_eq (.named n)
  rw [hnew] at hsize
  have hafter : (after ((Call.erase n (iteratorAt p)).perform env) w).size (.named n) =
      (l₁ ++ l₂).length := hsize
  rw [hafter, hs.inv.size_eq, hold]
  simp only [List.length_append, List.length_cons]
  omega

/-- A hive is a sequence with stable handles: `emplace` adds one position and `erase`
takes one away; the values that iteration reads are those inserted and not yet erased,
unless a rebuild was given up; a handle keeps its value until it is erased or its hive
gets new handles; and a rebuild that was given up leaves every handle in place. -/
theorem hive_stable_handles [DecidableEq α] (hs : Start env w₀)
    (hr : run (step env) w₀ calls = some w) :
    (∀ n v it, outcome ((Call.emplace n v).perform env) w = .ok (some it) →
      PositionAdded w (after ((Call.emplace n v).perform env) w) n v it) ∧
    (∀ n p, p ∈ w.positions (.named n) →
      PositionRemoved w (after ((Call.erase n (iteratorAt p)).perform env) w) n p) ∧
    ((∀ e ∈ history env w₀ calls, e.Complete) → ∀ n fuel, w.size (.named n) < fuel →
      ∃ its, w.traverse (w.last (.named n)) fuel (w.first (.named n)) = some its ∧
        (its.filterMap w.value : Multiset α) = ledger (history env w₀ calls) n) ∧
    (∀ later w' n p v, run (step env) w later = some w' → (p, v) ∈ w.elements (.named n) →
      Spared env p w later →
      ∃ m, (p, v) ∈ w'.elements (.named m) ∧ w'.value (iteratorAt p) = some v) ∧
    (∀ c n, c.valid w → event env w c = .interrupted n →
      Partly env (w.elements (.named n)) ((after (c.perform env) w).elements (.named n))) := by
  have hw : Settled w := reachable_settled (reachable_of_run hs hr)
  refine ⟨fun n v it ho => positionAdded_of_ok hw ho, fun n p hp => positionRemoved_of_live hw hp,
    fun hc n fuel hf => ?_, fun later w' n p v hr' hp hsp => ?_, fun c n hv he => ?_⟩
  · have hlen : (w.positions (.named n)).length < fuel := by
      rw [hw.inv.size_eq, ← List.length_map (f := Prod.fst), hw.inv.elements_fst] at hf
      exact hf
    refine ⟨_, hw.inv.traverse_eq _ hlen, ?_⟩
    rw [hw.inv.read_eq]
    have hacc := congrFun (run_account hs.settled hr hc) n
    have hstart : SeqEvent.values (contents w₀) = fun _ => 0 := by
      funext m
      simp [SeqEvent.values, contents, elements_of_none (hs.empty _)]
    rw [hstart] at hacc
    exact hacc
  · obtain ⟨m, hm⟩ := run_keeps hw hr' hsp hp
    have hw' : Settled w' := run_preserves (fun _ _ _ h ht => step_settled h ht) hw hr'
    exact ⟨m, hm, hw'.inv.value_eq hm⟩
  · have hstep : Stepped env w c := step_stepped hw hv
    have heff := hstep.effect
    rw [he] at heff
    obtain ⟨l, hl, hcont⟩ := heff
    have hn := congrFun hcont n
    rw [Function.update_self] at hn
    rw [show (after (c.perform env) w).elements (.named n) = l from hn]
    exact hl

/-- A rebuild in which the second element throws when it is moved: the values of both
elements are lost to the hive, although neither was erased. -/
theorem rebuild_interrupted_loses_values : Start (exampleEnv 19) exampleStore ∧
    run (step (exampleEnv 19)) exampleStore exampleCalls = some (exampleEnd 19) ∧
    ∃ its, (exampleEnd 19).traverse ((exampleEnd 19).last (.named 0)) 10
        ((exampleEnd 19).first (.named 0)) = some its ∧
      (its.filterMap (exampleEnd 19).value : Multiset ℕ) ≠
        ledger (history (exampleEnv 19) exampleStore exampleCalls) 0 := by
  refine ⟨exampleStart 19, exampleRun 19, [iteratorAt (0, 0), iteratorAt (0, 1)], ?_, ?_⟩
  · decide +kernel
  · decide +kernel

/-- In the same run without the exception, iteration reads both values. -/
theorem hive_stable_handles_rebuilt :
    ∃ its, (exampleEnd 1000).traverse ((exampleEnd 1000).last (.named 0)) 10
        ((exampleEnd 1000).first (.named 0)) = some its ∧
      (its.filterMap (exampleEnd 1000).value : Multiset ℕ) = {5, 7} := by
  have hh : history (exampleEnv 1000) exampleStore exampleCalls =
      [.inserted 0 (0, 0) 5, .inserted 0 (0, 1) 7, .rebuilt 0] := by decide +kernel
  have hc : ∀ e ∈ history (exampleEnv 1000) exampleStore exampleCalls, e.Complete := by
    rw [hh]
    simp [SeqEvent.Complete]
  have hl : ledger (history (exampleEnv 1000) exampleStore exampleCalls) 0 = {5, 7} := by
    decide +kernel
  rw [← hl]
  exact (hive_stable_handles (exampleStart 1000) (exampleRun 1000)).2.2.1 hc 0 10 (by decide +kernel)

end CCForge.Hive
