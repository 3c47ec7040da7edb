import Mathlib.Data.List.Nodup

/-!
# The intrusive record queue

Pending operations form a singly linked chain of shared pointers: the queue owns
the first record and every record owns the next one, so the chain below `head` is
a list. `tail` is a second pointer into it, through which `push_back` links the
next record; nothing but the operations themselves keeps it on the last record.
-/

namespace CCForge.Channel

abbrev RecordId := ℕ

/-- `target->next = record`: what `target` owned before is released. -/
def assignNext (target record : RecordId) : List RecordId → List RecordId
  | [] => []
  | r :: rest => if r = target then [r, record] else r :: assignNext target record rest

structure RecordQueue where
  head : List RecordId := []
  tail : Option RecordId := none
  deriving DecidableEq, Repr

namespace RecordQueue

def empty (q : RecordQueue) : Bool := q.head.isEmpty

def pushBack (q : RecordQueue) (record : RecordId) : RecordQueue :=
  match q.tail with
  | some t => ⟨assignNext t record q.head, some record⟩
  | none => ⟨[record], some record⟩

def popFront (q : RecordQueue) : Option RecordId × RecordQueue :=
  match q.head with
  | [] => (none, q)
  | record :: rest => (some record, ⟨rest, if rest.isEmpty then none else q.tail⟩)

/-- The search loop of `remove`, with the record before the current link. It
returns the chain without `record` and, when nothing is left behind the hole,
the new tail. -/
def removeFrom (record : RecordId) (previous : Option RecordId) :
    List RecordId → Option (List RecordId × Option (Option RecordId))
  | [] => none
  | r :: rest =>
    if r = record then some (rest, if rest.isEmpty then some previous else none)
    else (removeFrom record (some r) rest).map fun (chain, tail) => (r :: chain, tail)

def remove (q : RecordQueue) (record : RecordId) : Option RecordId × RecordQueue :=
  match removeFrom record none q.head with
  | none => (none, q)
  | some (chain, tail) => (some record, ⟨chain, tail.getD q.tail⟩)

def takeAll (q : RecordQueue) : List RecordId × RecordQueue := (q.head, ⟨[], none⟩)

/-- The links are right at both ends and no record is linked twice. -/
structure Linked (q : RecordQueue) : Prop where
  tail_eq : q.tail = q.head.getLast?
  nodup : q.head.Nodup

theorem linked_nil : Linked {} := ⟨rfl, List.nodup_nil⟩

theorem assignNext_last (record t : RecordId) (l : List RecordId)
    (hl : l.getLast? = some t) (hn : l.Nodup) : assignNext t record l = l ++ [record] := by
  induction l with
  | nil => simp at hl
  | cons r rest ih =>
    rw [List.nodup_cons] at hn
    cases rest with
    | nil =>
      have hr : r = t := by simpa using hl
      simp [assignNext, hr]
    | cons x xs =>
      have hlast : (x :: xs).getLast? = some t := by simpa [List.getLast?_cons_cons] using hl
      have hr : r ≠ t := by
        rintro rfl
        exact hn.1 (List.mem_of_getLast? hlast)
      rw [assignNext, if_neg hr, ih hlast hn.2]
      rfl

theorem pushBack_head {q : RecordQueue} (h : q.Linked) (record : RecordId) :
    (q.pushBack record).head = q.head ++ [record] := by
  unfold pushBack
  cases ht : q.tail with
  | none =>
    have hnil : q.head = [] := by simpa [ht] using h.tail_eq.symm
    simp [hnil]
  | some t => exact assignNext_last record t q.head (h.tail_eq.symm.trans ht) h.nodup

theorem Linked.pushBack {q : RecordQueue} (h : q.Linked) {record : RecordId}
    (hr : record ∉ q.head) : (q.pushBack record).Linked := by
  refine ⟨?_, ?_⟩
  · rw [pushBack_head h]
    unfold RecordQueue.pushBack
    cases q.tail <;> simp
  · rw [pushBack_head h, List.nodup_append]
    refine ⟨h.nodup, List.nodup_singleton _, ?_⟩
    intro a ha b hb
    rw [List.mem_singleton] at hb
    exact fun e => hr (hb ▸ e ▸ ha)

theorem Linked.popFront {q : RecordQueue} (h : q.Linked) : q.popFront.2.Linked := by
  obtain ⟨ht, hn⟩ := h
  unfold RecordQueue.popFront
  cases hq : q.head with
  | nil => exact ⟨by rw [ht, hq], by simp [hq]⟩
  | cons r rest =>
    rw [hq] at ht hn
    refine ⟨?_, (List.nodup_cons.mp hn).2⟩
    cases rest with
    | nil => rfl
    | cons x xs => simpa [List.getLast?_cons_cons] using ht

theorem removeFrom_eq_none {record : RecordId} {previous : Option RecordId}
    {l : List RecordId} : removeFrom record previous l = none ↔ record ∉ l := by
  induction l generalizing previous with
  | nil => simp [removeFrom]
  | cons r rest ih =>
    by_cases hr : r = record
    · simp [removeFrom, hr]
    · simp [removeFrom, hr, ih, Ne.symm hr]

/-- The loop invariant of `remove`: `previous` is the record before the suffix
that is still to be searched. -/
theorem removeFrom_spec (record : RecordId) (previous : Option RecordId) (l : List RecordId)
    (hr : record ∈ l) :
    ∃ tail, removeFrom record previous l = some (l.erase record, tail) ∧
      tail.getD l.getLast? = if l.erase record = [] then previous
        else (l.erase record).getLast? := by
  induction l generalizing previous with
  | nil => simp at hr
  | cons r rest ih =>
    by_cases hrec : r = record
    · subst hrec
      refine ⟨_, by simp [removeFrom]; rfl, ?_⟩
      cases rest with
      | nil => simp
      | cons x xs => simp [List.getLast?_cons_cons]
    · have hmem : record ∈ rest := by simpa [Ne.symm hrec] using hr
      obtain ⟨tail, he, htail⟩ := ih (some r) hmem
      refine ⟨tail, by simp [removeFrom, hrec, he, List.erase_cons_tail], ?_⟩
      have hne : rest ≠ [] := List.ne_nil_of_mem hmem
      rw [List.erase_cons_tail (by simpa using hrec)]
      obtain ⟨x, xs, hx⟩ := List.exists_cons_of_ne_nil hne
      have hl : (r :: rest).getLast? = rest.getLast? := by rw [hx, List.getLast?_cons_cons]
      rw [hl, htail, if_neg (List.cons_ne_nil _ _)]
      cases rest.erase record with
      | nil => rfl
      | cons y ys => simp [List.getLast?_cons_cons]

theorem remove_of_notMem {q : RecordQueue} {record : RecordId} (h : record ∉ q.head) :
    q.remove record = (none, q) := by
  simp [remove, removeFrom_eq_none.mpr h]

theorem remove_of_mem {q : RecordQueue} (h : q.Linked) {record : RecordId}
    (hr : record ∈ q.head) :
    (q.remove record).1 = some record ∧ (q.remove record).2.head = q.head.erase record ∧
      (q.remove record).2.Linked := by
  obtain ⟨tail, he, htail⟩ := removeFrom_spec record none q.head hr
  have hq : q.remove record = (some record, ⟨q.head.erase record, tail.getD q.tail⟩) := by
    simp [remove, he]
  rw [hq]
  refine ⟨rfl, rfl, ?_, h.nodup.erase record⟩
  rw [h.tail_eq, htail]
  split_ifs with hnil
  · simp [hnil]
  · rfl

@[simp] theorem takeAll_fst (q : RecordQueue) : q.takeAll.1 = q.head := rfl

@[simp] theorem takeAll_head (q : RecordQueue) : q.takeAll.2.head = [] := rfl

end RecordQueue
end CCForge.Channel
