import Mathlib.Algebra.Order.Group.Multiset
import Mathlib.Logic.Function.Basic

/-!
# Sequences with stable handles

A family of containers, each a sequence of values with handles. A container may be
changed by inserting one element anywhere, by erasing a segment, or by trading places
with another container; only a rebuild may give new handles to the elements. A history
of such events determines which values each container holds, and which handles are
still good.
-/

namespace CCForge

/-- The contents of the containers `κ`, with handles in `ι` and values in `β`. -/
abbrev Contents (κ ι β : Type*) := κ → List (ι × β)

/-- What has happened to a family of containers. -/
inductive SeqEvent (κ ι β : Type*) where
  | nothing
  | inserted (h : κ) (p : ι) (v : β)
  | erased (h : κ) (elements : List (ι × β))
  | replaced (h : κ) (values : List β)
  | rebuilt (h : κ)
  /-- A rebuild that was given up half-way. -/
  | interrupted (h : κ)
  | swapped (h other : κ)
  | spliced (h other : κ)
  deriving DecidableEq

namespace SeqEvent

variable {κ ι β : Type*} [DecidableEq κ]

/-- The contents before and after an event. A rebuild that was given up leaves what
`Left` says. -/
def Effect (Left : List (ι × β) → List (ι × β) → Prop) (A A' : Contents κ ι β) :
    SeqEvent κ ι β → Prop
  | nothing => A' = A
  | inserted h p v => ∃ l₁ l₂, p ∉ (A h).map Prod.fst ∧ A h = l₁ ++ l₂ ∧
      A' = Function.update A h (l₁ ++ (p, v) :: l₂)
  | erased h elements => ∃ l₁ l₂, A h = l₁ ++ (elements ++ l₂) ∧ A' = Function.update A h (l₁ ++ l₂)
  | replaced h values => ∃ l, (l.map Prod.snd).Perm values ∧ A' = Function.update A h l
  | rebuilt h => ∃ l, (l.map Prod.snd).Perm ((A h).map Prod.snd) ∧ A' = Function.update A h l
  | interrupted h => ∃ l, Left (A h) l ∧ A' = Function.update A h l
  | swapped h other => A' = Function.update (Function.update A h (A other)) other (A h)
  | spliced h other => h ≠ other ∧
      A' = Function.update (Function.update A h (A h ++ A other)) other []

/-- The values that each container should hold after an event: those inserted and not
yet erased. -/
def account [DecidableEq β] (L : κ → Multiset β) : SeqEvent κ ι β → κ → Multiset β
  | nothing => L
  | inserted h _ v => Function.update L h (v ::ₘ L h)
  | erased h elements => Function.update L h (L h - (elements.map Prod.snd : List β))
  | replaced h values => Function.update L h values
  | rebuilt _ => L
  | interrupted _ => L
  | swapped h other => Function.update (Function.update L h (L other)) other (L h)
  | spliced h other => Function.update (Function.update L h (L h + L other)) other 0

/-- The event neither erases the element at `p` nor gives new handles to its container. -/
def Spares (A : Contents κ ι β) (p : ι) : SeqEvent κ ι β → Prop
  | erased _ elements => p ∉ elements.map Prod.fst
  | replaced h _ => p ∉ (A h).map Prod.fst
  | rebuilt h => p ∉ (A h).map Prod.fst
  | interrupted h => p ∉ (A h).map Prod.fst
  | _ => True

/-- The event is not a rebuild that was given up. -/
def Complete : SeqEvent κ ι β → Prop
  | interrupted _ => False
  | _ => True

variable {Left : List (ι × β) → List (ι × β) → Prop} {A A' : Contents κ ι β} {e : SeqEvent κ ι β}

omit [DecidableEq κ] in
/-- The values of a family of containers. -/
def values (A : Contents κ ι β) (n : κ) : Multiset β := ((A n).map Prod.snd : List β)

theorem values_update {h : κ} {l : List (ι × β)} :
    values (Function.update A h l) = Function.update (values A) h (l.map Prod.snd : List β) := by
  funext n
  by_cases hn : n = h
  · subst hn
    simp [values]
  · simp [values, hn]

/-- The account is right after every event but a rebuild that was given up. -/
theorem Effect.account [DecidableEq β] (he : Effect Left A A' e) (hc : Complete e) :
    values A' = account (values A) e := by
  cases e with
  | nothing =>
    rw [show A' = A from he]
    rfl
  | inserted h p v =>
    obtain ⟨l₁, l₂, -, hA, rfl⟩ := he
    rw [values_update, SeqEvent.account]
    congr 1
    rw [values, hA]
    simp only [List.map_append, List.map_cons, ← Multiset.coe_add, ← Multiset.cons_coe]
    exact Multiset.add_cons _ _ _
  | erased h elements =>
    obtain ⟨l₁, l₂, hA, rfl⟩ := he
    rw [values_update, SeqEvent.account]
    congr 1
    rw [values, hA]
    simp only [List.map_append, ← Multiset.coe_add]
    rw [add_left_comm, add_tsub_cancel_left]
  | replaced h vs =>
    obtain ⟨l, hl, rfl⟩ := he
    rw [values_update, SeqEvent.account, Multiset.coe_eq_coe.mpr hl]
  | rebuilt h =>
    obtain ⟨l, hl, rfl⟩ := he
    rw [values_update, SeqEvent.account, Multiset.coe_eq_coe.mpr hl]
    exact Function.update_eq_self h (values A)
  | interrupted h => exact absurd hc id
  | swapped h other =>
    rw [show A' = _ from he, values_update, values_update]
    rfl
  | spliced h other =>
    obtain ⟨-, rfl⟩ := he
    rw [values_update, values_update, List.map_append, ← Multiset.coe_add]
    rfl

/-- An element that is spared stays with its handle and its value. -/
theorem Effect.keeps (he : Effect Left A A' e) {p : ι} {v : β} {n : κ} (hp : (p, v) ∈ A n)
    (hs : Spares A p e) : ∃ m, (p, v) ∈ A' m := by
  have hupdate : ∀ h l, (n = h → (p, v) ∈ l) → ∃ m, (p, v) ∈ Function.update A h l m := by
    intro h l hl
    by_cases hn : n = h
    · exact ⟨h, by simpa using hl hn⟩
    · exact ⟨n, by simpa [hn] using hp⟩
  have hfst : p ∈ (A n).map Prod.fst := List.mem_map.mpr ⟨_, hp, rfl⟩
  cases e with
  | nothing => exact ⟨n, by rw [show A' = A from he]; exact hp⟩
  | inserted h q u =>
    obtain ⟨l₁, l₂, -, hA, rfl⟩ := he
    refine hupdate h _ ?_
    rintro rfl
    rw [hA, List.mem_append] at hp
    rcases hp with hp | hp <;> simp [hp]
  | erased h elements =>
    obtain ⟨l₁, l₂, hA, rfl⟩ := he
    refine hupdate h _ ?_
    rintro rfl
    rw [hA, List.mem_append, List.mem_append] at hp
    rcases hp with hp | hp | hp
    · simp [hp]
    · exact absurd (List.mem_map.mpr ⟨_, hp, rfl⟩) hs
    · simp [hp]
  | replaced h vs =>
    obtain ⟨l, -, rfl⟩ := he
    exact hupdate h l fun hn => absurd (hn ▸ hfst) hs
  | rebuilt h =>
    obtain ⟨l, -, rfl⟩ := he
    exact hupdate h l fun hn => absurd (hn ▸ hfst) hs
  | interrupted h =>
    obtain ⟨l, -, rfl⟩ := he
    exact hupdate h l fun hn => absurd (hn ▸ hfst) hs
  | swapped h other =>
    rw [show A' = _ from he]
    by_cases hn : n = h
    · exact ⟨other, by subst hn; simpa using hp⟩
    · by_cases hn' : n = other
      · subst hn'
        exact ⟨h, by simpa [Ne.symm hn] using hp⟩
      · exact ⟨n, by simpa [hn, hn'] using hp⟩
  | spliced h other =>
    obtain ⟨hne, rfl⟩ := he
    by_cases hn : n = other
    · subst hn
      exact ⟨h, by simp [hne, hp]⟩
    · by_cases hn' : n = h
      · subst hn'
        exact ⟨n, by simp [hne, hp]⟩
      · exact ⟨n, by simpa [hn, hn'] using hp⟩

end SeqEvent

end CCForge
