import Mathlib.Data.List.Nodup
import Mathlib.Data.List.GetD
import Mathlib.Logic.Function.Basic

/-!
# Cells

A store gives every address a value. Values are written to a list of addresses one after another,
so that the last one counts where an address comes more than once.
-/

namespace CCForge.Cells

variable {A V : Type*} [DecidableEq A] {m : A → V} {as bs : List A} {vs ws : List V} {a : A} {i : ℕ}

/-- The store after the writes. -/
def writeAll (m : A → V) (writes : List (A × V)) : A → V :=
  writes.foldl (fun m w => Function.update m w.1 w.2) m

@[simp] theorem writeAll_nil : writeAll m ([] : List (A × V)) = m := rfl

theorem writeAll_cons (w : A × V) (writes : List (A × V)) :
    writeAll m (w :: writes) = writeAll (Function.update m w.1 w.2) writes := rfl

theorem writeAll_append (first second : List (A × V)) :
    writeAll m (first ++ second) = writeAll (writeAll m first) second := List.foldl_append

/-- An address that is not written keeps its value. -/
theorem writeAll_of_notMem (h : a ∉ as) : writeAll m (as.zip vs) a = m a := by
  induction as generalizing m vs with
  | nil => rfl
  | cons b as ih =>
    rw [List.mem_cons, not_or] at h
    cases vs with
    | nil => rfl
    | cons v vs =>
      rw [List.zip_cons_cons, writeAll_cons, ih h.2]
      exact Function.update_of_ne h.1 v m

/-- Other addresses are read as before. -/
theorem map_writeAll_of_disjoint (h : bs.Disjoint as) : bs.map (writeAll m (as.zip vs)) = bs.map m :=
  List.map_congr_left fun _ hb => writeAll_of_notMem (h hb)

/-- Distinct addresses hold what was written, and the rest what they held. -/
theorem map_writeAll (h : as.Nodup) :
    as.map (writeAll m (as.zip vs)) = vs.take as.length ++ (as.map m).drop vs.length := by
  induction as generalizing m vs with
  | nil => simp
  | cons a as ih =>
    rw [List.nodup_cons] at h
    cases vs with
    | nil => simp
    | cons v vs =>
      have hself : writeAll (Function.update m a v) (as.zip vs) a = v := by
        rw [writeAll_of_notMem h.1]
        exact Function.update_self a v m
      have hrest : as.map (Function.update m a v) = as.map m :=
        List.map_congr_left fun b hb => Function.update_of_ne (ne_of_mem_of_not_mem hb h.1) v m
      rw [List.zip_cons_cons, writeAll_cons, List.map_cons, hself, ih h.2, hrest]
      simp

/-- Writing in two parts, where the values of the second are read in between. -/
theorem writeAll_zip_append {as' bs' : List A} (hlen : as.length = bs.length)
    (hdisjoint : bs'.Disjoint as) :
    writeAll m ((as ++ as').zip ((bs ++ bs').map m)) =
      writeAll (writeAll m (as.zip (bs.map m)))
        (as'.zip (bs'.map (writeAll m (as.zip (bs.map m))))) := by
  rw [map_writeAll_of_disjoint hdisjoint, List.map_append, List.zip_append (by simpa using hlen),
    writeAll_append]

end CCForge.Cells
