import Mathlib.Data.List.Nodup
import Mathlib.Logic.Function.Basic

/-!
# Intrusive linked lists

The nodes of an intrusive list carry their own links, so a list is a pair of link
functions together with the claim that following them visits a given sequence of
nodes. Every operation on such a list either joins two pieces or inserts one node
between two pieces.
-/

namespace CCForge

variable {ι : Type*}

/-- The links that the nodes of a doubly linked list carry. -/
structure Links (ι : Type*) where
  next : ι → Option ι
  prev : ι → Option ι

namespace Links

variable [DecidableEq ι]

def setNext (L : Links ι) (a : ι) (x : Option ι) : Links ι :=
  { L with next := Function.update L.next a x }

def setPrev (L : Links ι) (a : ι) (x : Option ι) : Links ι :=
  { L with prev := Function.update L.prev a x }

/-- `setNext` through a pointer that may be null. -/
def setNextOf (L : Links ι) (a? : Option ι) (x : Option ι) : Links ι :=
  match a? with
  | some a => L.setNext a x
  | none => L

def setPrevOf (L : Links ι) (a? : Option ι) (x : Option ι) : Links ι :=
  match a? with
  | some a => L.setPrev a x
  | none => L

/-- Writes both links of a node. -/
def put (L : Links ι) (a : ι) (p n : Option ι) : Links ι := (L.setPrev a p).setNext a n

/-- Joins the neighbours of a node and clears its own links. -/
def unlink (L : Links ι) (a : ι) : Links ι :=
  ((L.setNextOf (L.prev a) (L.next a)).setPrevOf (L.next a) (L.prev a)).put a none none

/-- Puts a node before the one at `head`. -/
def push (L : Links ι) (head : Option ι) (a : ι) : Links ι :=
  (L.put a none head).setPrevOf head (some a)

/-- Puts a node behind the one at `tail`. -/
def append (L : Links ι) (tail : Option ι) (a : ι) : Links ι :=
  (L.put a tail none).setNextOf tail (some a)

omit [DecidableEq ι] in
/-- The nodes `l` in this order, between the neighbours `p` and `q`. -/
def Seg (L : Links ι) (p : Option ι) : List ι → Option ι → Prop
  | [], _ => True
  | a :: l, q => L.prev a = p ∧ L.next a = l.head?.or q ∧ L.Seg (some a) l q

variable {L K : Links ι} {p q x y : Option ι} {l l₁ l₂ : List ι} {a b : ι}

omit [DecidableEq ι] in
theorem seg_append : L.Seg p (l₁ ++ l₂) q ↔
    L.Seg p l₁ (l₂.head?.or q) ∧ L.Seg (l₁.getLast?.or p) l₂ q := by
  induction l₁ generalizing p with
  | nil => simp [Seg]
  | cons a l ih =>
    have hlast : (a :: l).getLast?.or p = l.getLast?.or (some a) := by
      cases h : l.getLast? with
      | none =>
        rw [List.getLast?_eq_none_iff] at h
        simp [h]
      | some b => simp [List.getLast?_cons, h]
    have hhead : (l ++ l₂).head?.or q = l.head?.or (l₂.head?.or q) := by
      cases l <;> simp
    simp only [List.cons_append, Seg, ih, hlast, hhead]
    tauto

omit [DecidableEq ι] in
/-- Only the links of the nodes themselves matter. -/
theorem Seg.congr (h : L.Seg p l q) (hn : ∀ a ∈ l, K.next a = L.next a)
    (hp : ∀ a ∈ l, K.prev a = L.prev a) : K.Seg p l q := by
  induction l generalizing p with
  | nil => trivial
  | cons a l ih =>
    obtain ⟨h1, h2, h3⟩ := h
    refine ⟨?_, ?_, ih h3 (fun b hb => hn b (List.mem_cons_of_mem a hb))
      (fun b hb => hp b (List.mem_cons_of_mem a hb))⟩
    · rw [hp a List.mem_cons_self, h1]
    · rw [hn a List.mem_cons_self, h2]

@[simp] theorem setNextOf_prev (L : Links ι) (a? x : Option ι) : (L.setNextOf a? x).prev = L.prev := by
  cases a? <;> rfl

@[simp] theorem setPrevOf_next (L : Links ι) (a? x : Option ι) : (L.setPrevOf a? x).next = L.next := by
  cases a? <;> rfl

theorem setNextOf_next (L : Links ι) {a? : Option ι} (x : Option ι) (h : a? ≠ some b) :
    (L.setNextOf a? x).next b = L.next b := by
  cases a? with
  | none => rfl
  | some a =>
    have hb : b ≠ a := fun he => h (by rw [he])
    exact Function.update_of_ne hb _ _

theorem setPrevOf_prev (L : Links ι) {a? : Option ι} (x : Option ι) (h : a? ≠ some b) :
    (L.setPrevOf a? x).prev b = L.prev b := by
  cases a? with
  | none => rfl
  | some a =>
    have hb : b ≠ a := fun he => h (by rw [he])
    exact Function.update_of_ne hb _ _

/-- Redirects the last node of a piece. -/
theorem Seg.redirect_last (h : L.Seg p l q) (hl : l.Nodup) :
    (L.setNextOf l.getLast? x).Seg p l x := by
  induction l generalizing p with
  | nil => trivial
  | cons a l ih =>
    obtain ⟨h1, h2, h3⟩ := h
    obtain ⟨ha, hl⟩ := List.nodup_cons.mp hl
    cases l with
    | nil =>
      refine ⟨h1, ?_, trivial⟩
      show Function.update L.next a x a = _
      simp
    | cons b l =>
      have hlast : (a :: b :: l).getLast? = (b :: l).getLast? := by simp [List.getLast?_cons]
      rw [hlast]
      refine ⟨?_, ?_, ih h3 hl⟩
      · rw [setNextOf_prev, h1]
      · rw [setNextOf_next, h2]
        · simp
        · intro he
          exact ha (List.mem_of_getLast? he)

/-- Redirects the first node of a piece. -/
theorem Seg.redirect_first (h : L.Seg p l q) (hl : l.Nodup) :
    (L.setPrevOf l.head? x).Seg x l q := by
  cases l with
  | nil => trivial
  | cons a l =>
    obtain ⟨h1, h2, h3⟩ := h
    obtain ⟨ha, -⟩ := List.nodup_cons.mp hl
    refine ⟨?_, ?_, h3.congr ?_ ?_⟩
    · show Function.update L.prev a x a = x
      simp
    · rw [setPrevOf_next, h2]
    · simp
    · intro b hb
      refine setPrevOf_prev L x ?_
      simp only [List.head?_cons, ne_eq, Option.some.injEq]
      rintro rfl
      exact ha hb

theorem Seg.setNextOf_of_notMem (h : L.Seg p l q) (hx : ∀ a, y = some a → a ∉ l) :
    (L.setNextOf y x).Seg p l q := by
  refine h.congr (fun b hb => setNextOf_next L x ?_) (by simp)
  intro he
  exact hx b he hb

theorem Seg.setPrevOf_of_notMem (h : L.Seg p l q) (hx : ∀ a, y = some a → a ∉ l) :
    (L.setPrevOf y x).Seg p l q := by
  refine h.congr (by simp) (fun b hb => setPrevOf_prev L x ?_)
  intro he
  exact hx b he hb

/-- Two pieces become one list. -/
theorem Seg.join (h₁ : L.Seg none l₁ q) (h₂ : L.Seg p l₂ none) (hn : (l₁ ++ l₂).Nodup) :
    ((L.setNextOf l₁.getLast? l₂.head?).setPrevOf l₂.head? l₁.getLast?).Seg none (l₁ ++ l₂) none := by
  obtain ⟨hn₁, hn₂, hdis⟩ := List.nodup_append.mp hn
  rw [seg_append]
  constructor
  · have h := h₁.redirect_last (x := l₂.head?) hn₁
    rw [Option.or_none]
    refine h.setPrevOf_of_notMem fun a ha hm => ?_
    exact hdis a hm a (List.mem_of_head? ha) rfl
  · rw [Option.or_none]
    have h : (L.setNextOf l₁.getLast? l₂.head?).Seg p l₂ none :=
      h₂.setNextOf_of_notMem fun a ha hm => hdis a (List.mem_of_getLast? ha) a hm rfl
    exact h.redirect_first hn₂

/-- One node is inserted between two pieces. -/
theorem Seg.insert (h₁ : L.Seg none l₁ q) (h₂ : L.Seg p l₂ none) (hn : (l₁ ++ a :: l₂).Nodup)
    (hp : L.prev a = l₁.getLast?) (hq : L.next a = l₂.head?) :
    ((L.setNextOf l₁.getLast? (some a)).setPrevOf l₂.head? (some a)).Seg none (l₁ ++ a :: l₂) none := by
  obtain ⟨hn₁, hn₂, hdis⟩ := List.nodup_append.mp hn
  obtain ⟨ha, hn₂⟩ := List.nodup_cons.mp hn₂
  have ha₁ : a ∉ l₁ := fun hm => hdis a hm a List.mem_cons_self rfl
  rw [seg_append]
  refine ⟨?_, ?_, ?_, ?_⟩
  · have h := h₁.redirect_last (x := some a) hn₁
    refine h.setPrevOf_of_notMem fun b hb hm => ?_
    exact hdis b hm b (List.mem_cons_of_mem a (List.mem_of_head? hb)) rfl
  · rw [setPrevOf_prev, setNextOf_prev, hp, Option.or_none]
    intro he
    exact ha (List.mem_of_head? he)
  · rw [setPrevOf_next, setNextOf_next, hq, Option.or_none]
    intro he
    exact ha₁ (List.mem_of_getLast? he)
  · have h : (L.setNextOf l₁.getLast? (some a)).Seg p l₂ none :=
      h₂.setNextOf_of_notMem fun b hb hm =>
        hdis b (List.mem_of_getLast? hb) b (List.mem_cons_of_mem a hm) rfl
    exact h.redirect_first hn₂

omit [DecidableEq ι] in
/-- The neighbours of a node in a list. -/
theorem Seg.neighbours (h : L.Seg none (l₁ ++ a :: l₂) none) :
    L.prev a = l₁.getLast? ∧ L.next a = l₂.head? ∧ L.Seg none l₁ (some a) ∧
      L.Seg (some a) l₂ none := by
  rw [seg_append] at h
  obtain ⟨h1, h2, h3, h4⟩ := h
  rw [Option.or_none] at h2 h3
  exact ⟨h2, h3, by simpa using h1, h4⟩

omit [DecidableEq ι] in
/-- The links of one node are the same. -/
structure SameAt (L K : Links ι) (b : ι) : Prop where
  next : K.next b = L.next b
  prev : K.prev b = L.prev b

omit [DecidableEq ι] in
theorem SameAt.rfl : L.SameAt L b := ⟨Eq.refl _, Eq.refl _⟩

omit [DecidableEq ι] in
theorem SameAt.trans {J : Links ι} (h : L.SameAt K b) (h' : K.SameAt J b) : L.SameAt J b :=
  ⟨h'.next.trans h.next, h'.prev.trans h.prev⟩

omit [DecidableEq ι] in
theorem Seg.of_same (h : L.Seg p l q) (hs : ∀ a ∈ l, L.SameAt K a) : K.Seg p l q :=
  h.congr (fun a ha => (hs a ha).next) (fun a ha => (hs a ha).prev)

theorem put_same (hb : b ≠ a) : L.SameAt (L.put a p q) b :=
  ⟨Function.update_of_ne hb _ _, Function.update_of_ne hb _ _⟩

@[simp] theorem put_next : (L.put a p q).next a = q := Function.update_self _ _ _

@[simp] theorem put_prev : (L.put a p q).prev a = p := Function.update_self _ _ _

theorem setNextOf_same (h : x ≠ some b) : L.SameAt (L.setNextOf x y) b :=
  ⟨setNextOf_next L y h, by rw [setNextOf_prev]⟩

theorem setPrevOf_same (h : x ≠ some b) : L.SameAt (L.setPrevOf x y) b :=
  ⟨by rw [setPrevOf_next], setPrevOf_prev L y h⟩

theorem Seg.push (h : L.Seg none l none) (hn : (a :: l).Nodup) :
    (L.push l.head? a).Seg none (a :: l) none := by
  have hnot := (List.nodup_cons.mp hn).1
  have hput : (L.put a none l.head?).Seg none l none :=
    h.of_same fun b hb => put_same fun he => hnot (he ▸ hb)
  have hnil : (L.put a none l.head?).Seg none [] none := trivial
  exact hnil.insert hput hn (by simp) (by simp)

theorem push_same (hb : b ∉ a :: l) : L.SameAt (L.push l.head? a) b := by
  rw [List.mem_cons, not_or] at hb
  exact (put_same hb.1).trans (setPrevOf_same fun he => hb.2 (List.mem_of_head? he))

theorem Seg.append (h : L.Seg none l none) (hn : (l ++ [a]).Nodup) :
    (L.append l.getLast? a).Seg none (l ++ [a]) none := by
  have hnot : a ∉ l := fun hm => (List.nodup_append.mp hn).2.2 a hm a List.mem_cons_self rfl
  have hput : (L.put a l.getLast? none).Seg none l none :=
    h.of_same fun b hb => put_same fun he => hnot (he ▸ hb)
  have hnil : (L.put a l.getLast? none).Seg none [] none := trivial
  exact hput.insert hnil hn (by simp) (by simp)

theorem append_same (hb : b ∉ l ++ [a]) : L.SameAt (L.append l.getLast? a) b := by
  rw [List.mem_append, List.mem_singleton, not_or] at hb
  exact (put_same hb.2).trans (setNextOf_same fun he => hb.1 (List.mem_of_getLast? he))

theorem Seg.unlink (h : L.Seg none (l₁ ++ a :: l₂) none) (hn : (l₁ ++ a :: l₂).Nodup) :
    (L.unlink a).Seg none (l₁ ++ l₂) none := by
  obtain ⟨hp, hq, h1, h2⟩ := h.neighbours
  rw [List.nodup_middle, List.nodup_cons] at hn
  have hjoin := h1.join h2 hn.2
  unfold Links.unlink
  rw [hp, hq]
  exact hjoin.of_same fun b hb => put_same fun he => hn.1 (he ▸ hb)

theorem unlink_same (h : L.Seg none (l₁ ++ a :: l₂) none) (hb : b ∉ l₁ ++ a :: l₂) :
    L.SameAt (L.unlink a) b := by
  obtain ⟨hp, hq, -, -⟩ := h.neighbours
  simp only [List.mem_append, List.mem_cons, not_or] at hb
  unfold Links.unlink
  rw [hp, hq]
  refine ((setNextOf_same fun he => ?_).trans (setPrevOf_same fun he => ?_)).trans (put_same hb.2.1)
  · exact hb.1 (List.mem_of_getLast? he)
  · exact hb.2.2 (List.mem_of_head? he)

omit [DecidableEq ι] in
/-- The head of a list without one of its nodes. -/
theorem Seg.head_without (h : L.Seg none (l₁ ++ a :: l₂) none) :
    (l₁ ++ l₂).head? = if (L.prev a).isNone then L.next a else (l₁ ++ a :: l₂).head? := by
  obtain ⟨hp, hq, -, -⟩ := h.neighbours
  rw [hp, hq]
  cases l₁ with
  | nil => simp
  | cons b l => simp

omit [DecidableEq ι] in
/-- The last node of a list without one of its nodes. -/
theorem Seg.last_without (h : L.Seg none (l₁ ++ a :: l₂) none) :
    (l₁ ++ l₂).getLast? = if (L.next a).isNone then L.prev a else (l₁ ++ a :: l₂).getLast? := by
  obtain ⟨hp, hq, -, -⟩ := h.neighbours
  rw [hp, hq]
  cases l₂ with
  | nil => simp
  | cons b l => simp [List.getLast?_append, List.getLast?_cons]

end Links

/-- Following `next` from `h` visits `l` and ends. -/
def Chain (next : ι → Option ι) : Option ι → List ι → Prop
  | h, [] => h = none
  | h, a :: l => h = some a ∧ Chain next (next a) l

namespace Chain

variable {next next' : ι → Option ι} {h : Option ι} {l : List ι}

theorem head (hc : Chain next h l) : h = l.head? := by
  cases l with
  | nil => exact hc
  | cons a l => exact hc.1

theorem congr (hc : Chain next h l) (hn : ∀ a ∈ l, next' a = next a) : Chain next' h l := by
  induction l generalizing h with
  | nil => exact hc
  | cons a l ih =>
    refine ⟨hc.1, ?_⟩
    rw [hn a List.mem_cons_self]
    exact ih hc.2 fun b hb => hn b (List.mem_cons_of_mem a hb)

/-- The last node is linked to `a`, which ends the list. -/
theorem snoc {a : ι} (hc : Chain next h l) (hn : l.Nodup)
    (hlast : ∀ b, l.getLast? = some b → next' b = some a)
    (hkeep : ∀ b ∈ l, l.getLast? ≠ some b → next' b = next b) (ha : next' a = none) :
    Chain next' (l.head?.or (some a)) (l ++ [a]) := by
  induction l generalizing h with
  | nil => exact ⟨rfl, ha⟩
  | cons b l ih =>
    obtain ⟨rfl, hc⟩ := hc
    obtain ⟨hb, hn⟩ := List.nodup_cons.mp hn
    cases l with
    | nil => exact ⟨rfl, hlast b rfl, ha⟩
    | cons d l =>
      have hd : (b :: d :: l).getLast? = (d :: l).getLast? := by simp [List.getLast?_cons]
      rw [hd] at hlast hkeep
      have hbnext : next' b = next b := by
        apply hkeep b List.mem_cons_self
        intro he
        exact hb (List.mem_of_getLast? he)
      refine ⟨rfl, ?_⟩
      rw [hbnext, hc.head]
      exact ih hc hn hlast fun x hx => hkeep x (List.mem_cons_of_mem b hx)

/-- The link of a node leads to the rest of the list. -/
theorem next_at {l₁ l₂ : List ι} {a : ι} (hc : Chain next h (l₁ ++ a :: l₂)) :
    next a = l₂.head? := by
  induction l₁ generalizing h with
  | nil => exact hc.2.head
  | cons x l ih => exact ih hc.2

/-- The node behind `a` is taken out. -/
theorem skip [DecidableEq ι] {l₁ l₂ : List ι} {a b : ι} (hc : Chain next h (l₁ ++ a :: b :: l₂))
    (hn : (l₁ ++ a :: b :: l₂).Nodup) :
    Chain (Function.update next a (next b)) h (l₁ ++ a :: l₂) := by
  induction l₁ generalizing h with
  | nil =>
    obtain ⟨hh, ha, hb⟩ := hc
    have hnot : a ∉ b :: l₂ := (List.nodup_cons.mp hn).1
    refine ⟨hh, ?_⟩
    rw [Function.update_self]
    refine hb.congr fun x hx => Function.update_of_ne ?_ _ _
    rintro rfl
    exact hnot (List.mem_cons_of_mem b hx)
  | cons x l ih =>
    obtain ⟨hx, hn⟩ := List.nodup_cons.mp hn
    have hxa : x ≠ a := fun he => hx (by simp [he])
    refine ⟨hc.1, ?_⟩
    rw [Function.update_of_ne hxa]
    exact ih hc.2 hn

end Chain

theorem Links.Seg.chain {L : Links ι} {p : Option ι} {l : List ι} (h : L.Seg p l none) :
    Chain L.next l.head? l := by
  induction l generalizing p with
  | nil => rfl
  | cons a l ih =>
    obtain ⟨-, h2, h3⟩ := h
    refine ⟨rfl, ?_⟩
    rw [h2, Option.or_none]
    exact ih h3

end CCForge
