import CCForge.Linalg.Symmetric
import Mathlib.Algebra.Star.BigOperators

/-!
# Rank updates of one triangle

The functions write the named triangle of the output, entry by entry, through its mapping. The
updating forms add to a matrix `E`, which may be the output itself. The memory of the output
counts its writes.
-/

namespace CCForge.Linalg

open CCForge.Loops RealPart

universe u

variable {R : Type u} {t : Triangle} {n : ℕ}

/-- The memory behind the output and the offsets written so far. -/
structure Store (R : Type u) where
  cell : ℕ → R
  writes : List ℕ

def Store.write (s : Store R) (offset : ℕ) (v : R) : Store R where
  cell := Function.update s.cell offset v
  writes := s.writes ++ [offset]

/-- The mapping of an output for the triangle `t` of an `n` by `n` matrix: one that gives every
entry its own offset, or the packed layout of the triangle. -/
inductive Output (t : Triangle) (n : ℕ) where
  | dense (offset : ℕ × ℕ → ℕ) (unique : ∀ p q : ℕ × ℕ, p.1 < n → p.2 < n → q.1 < n → q.2 < n →
      offset p = offset q → p = q)
  | packed (m : PackedMapping) (triangle : m.triangle = t) (extent : m.extent = n)

/-- Where an entry is stored. -/
def Output.offset : Output t n → ℕ × ℕ → ℕ
  | .dense offset _, p => offset p
  | .packed m _ _, p => ((m.call p.1 p.2).getD 0).toNat

/-- The matrix `E` of an updating form. -/
inductive Source (R : Type u) where
  | matrix (E : ℕ × ℕ → R)
  /-- The very same matrix as the output. -/
  | output

def Source.read (E : Source R) (out : Output t n) (s : Store R) (p : ℕ × ℕ) : R :=
  match E with
  | .matrix E => E p
  | .output => s.cell (out.offset p)

/-- The loops over the entries of the triangle. -/
def triangleLoop (t : Triangle) (n : ℕ) (body : ℕ → ℕ → Store R → Store R) (s : Store R) :
    Store R :=
  match t with
  | .upper => forUp 0 n (fun i => forUp i n (body i)) s
  | .lower => forUp 0 n (fun i => forUp 0 (i + 1) (body i)) s

/-- `A[i, j] = value`. -/
def Output.overwrite (out : Output t n) (value : ℕ → ℕ → R) (s : Store R) : Store R :=
  triangleLoop t n (fun i j s => s.write (out.offset (i, j)) (value i j)) s

/-- `A[i, j] = value`, where the value is computed from `E[i, j]`. -/
def Output.updateFrom (out : Output t n) (E : Source R) (value : R → ℕ → ℕ → R) (s : Store R) :
    Store R :=
  triangleLoop t n (fun i j s =>
    s.write (out.offset (i, j)) (value (E.read out s (i, j)) i j)) s

section
variable [CommRing R] (alpha : R) (x y : ℕ → R) (k : ℕ) (A B : ℕ × ℕ → R) (E : Source R)
  (out : Output t n)

/-- `symmetric_matrix_rank_1_update`. -/
def symmetricMatrixRank1Update : Store R → Store R :=
  out.overwrite fun i j => alpha * x i * x j

def symmetricMatrixRank1UpdateFrom : Store R → Store R :=
  out.updateFrom E fun e i j => e + alpha * x i * x j

/-- `symmetric_matrix_rank_2_update`. -/
def symmetricMatrixRank2Update : Store R → Store R :=
  out.overwrite fun i j => x i * y j + y i * x j

def symmetricMatrixRank2UpdateFrom : Store R → Store R :=
  out.updateFrom E fun e i j => e + x i * y j + y i * x j

def symmetricMatrixRank2UpdateScaled : Store R → Store R :=
  out.overwrite fun i j => alpha * (x i * y j + y i * x j)

/-- The accumulator of `symmetric_matrix_rank_k_update`. -/
def rankKSum (i j : ℕ) : R :=
  forUp 0 k (fun l sum => sum + A (i, l) * A (j, l)) 0

/-- `symmetric_matrix_rank_k_update`. -/
def symmetricMatrixRankKUpdate : Store R → Store R :=
  out.overwrite fun i j => alpha * rankKSum k A i j

def symmetricMatrixRankKUpdateFrom : Store R → Store R :=
  out.updateFrom E fun e i j => e + alpha * rankKSum k A i j

/-- The accumulator of `symmetric_matrix_rank_2k_update`. -/
def rank2KSum (i j : ℕ) : R :=
  forUp 0 k (fun l sum => sum + (A (i, l) * B (j, l) + B (i, l) * A (j, l))) 0

/-- `symmetric_matrix_rank_2k_update`. -/
def symmetricMatrixRank2KUpdate : Store R → Store R :=
  out.overwrite fun i j => rank2KSum k A B i j

def symmetricMatrixRank2KUpdateFrom : Store R → Store R :=
  out.updateFrom E fun e i j => e + rank2KSum k A B i j

def symmetricMatrixRank2KUpdateScaled : Store R → Store R :=
  out.overwrite fun i j => alpha * rank2KSum k A B i j

end

section
variable [CommRing R] [StarRing R] [RealPart R] (alpha : R) (x y : ℕ → R) (k : ℕ)
  (A B : ℕ × ℕ → R) (E : Source R) (out : Output t n)

/-- `(i == j) ? __real_if_needed(value) : value`. -/
def realDiagonal (i j : ℕ) (value : R) : R :=
  if i = j then re value else value

/-- `hermitian_matrix_rank_1_update`. -/
def hermitianMatrixRank1Update : Store R → Store R :=
  out.overwrite fun i j => realDiagonal i j (re alpha * x i * star (x j))

def hermitianMatrixRank1UpdateFrom : Store R → Store R :=
  out.updateFrom E fun e i j => realDiagonal i j (e + re alpha * x i * star (x j))

/-- `hermitian_matrix_rank_1_update` without a scaling factor. -/
def hermitianMatrixRank1UpdateOne : Store R → Store R :=
  hermitianMatrixRank1Update 1 x out

/-- `hermitian_matrix_rank_2_update`. -/
def hermitianMatrixRank2Update : Store R → Store R :=
  out.overwrite fun i j => realDiagonal i j (x i * star (y j) + y i * star (x j))

def hermitianMatrixRank2UpdateFrom : Store R → Store R :=
  out.updateFrom E fun e i j => realDiagonal i j (e + x i * star (y j) + y i * star (x j))

/-- The accumulator of `hermitian_matrix_rank_k_update`. -/
def hermitianRankKSum (i j : ℕ) : R :=
  forUp 0 k (fun l sum => sum + A (i, l) * star (A (j, l))) 0

/-- `hermitian_matrix_rank_k_update`. -/
def hermitianMatrixRankKUpdate : Store R → Store R :=
  out.overwrite fun i j => realDiagonal i j (re alpha * hermitianRankKSum k A i j)

def hermitianMatrixRankKUpdateFrom : Store R → Store R :=
  out.updateFrom E fun e i j => realDiagonal i j (e + re alpha * hermitianRankKSum k A i j)

/-- `hermitian_matrix_rank_k_update` without a scaling factor. -/
def hermitianMatrixRankKUpdateOne : Store R → Store R :=
  hermitianMatrixRankKUpdate 1 k A out

end

/-- A call of a rank update with its operands, and with `E` where the form has it. -/
inductive RankUpdate (R : Type u) where
  | symmetricRank1 (alpha : R) (x : ℕ → R) (E : Option (Source R))
  | symmetricRank2 (x y : ℕ → R) (E : Option (Source R))
  | symmetricRank2Scaled (alpha : R) (x y : ℕ → R)
  | symmetricRankK (alpha : R) (k : ℕ) (A : ℕ × ℕ → R) (E : Option (Source R))
  | symmetricRank2K (k : ℕ) (A B : ℕ × ℕ → R) (E : Option (Source R))
  | symmetricRank2KScaled (alpha : R) (k : ℕ) (A B : ℕ × ℕ → R)
  | hermitianRank1 (alpha : R) (x : ℕ → R) (E : Option (Source R))
  | hermitianRank1One (x : ℕ → R)
  | hermitianRank2 (x y : ℕ → R) (E : Option (Source R))
  | hermitianRankK (alpha : R) (k : ℕ) (A : ℕ × ℕ → R) (E : Option (Source R))
  | hermitianRankKOne (k : ℕ) (A : ℕ × ℕ → R)

namespace RankUpdate

variable [CommRing R] [StarRing R] [RealPart R]

/-- The function that the call runs. -/
def run (out : Output t n) : RankUpdate R → Store R → Store R
  | symmetricRank1 alpha x none => symmetricMatrixRank1Update alpha x out
  | symmetricRank1 alpha x (some E) => symmetricMatrixRank1UpdateFrom alpha x E out
  | symmetricRank2 x y none => symmetricMatrixRank2Update x y out
  | symmetricRank2 x y (some E) => symmetricMatrixRank2UpdateFrom x y E out
  | symmetricRank2Scaled alpha x y => symmetricMatrixRank2UpdateScaled alpha x y out
  | symmetricRankK alpha k A none => symmetricMatrixRankKUpdate alpha k A out
  | symmetricRankK alpha k A (some E) => symmetricMatrixRankKUpdateFrom alpha k A E out
  | symmetricRank2K k A B none => symmetricMatrixRank2KUpdate k A B out
  | symmetricRank2K k A B (some E) => symmetricMatrixRank2KUpdateFrom k A B E out
  | symmetricRank2KScaled alpha k A B => symmetricMatrixRank2KUpdateScaled alpha k A B out
  | hermitianRank1 alpha x none => hermitianMatrixRank1Update alpha x out
  | hermitianRank1 alpha x (some E) => hermitianMatrixRank1UpdateFrom alpha x E out
  | hermitianRank1One x => hermitianMatrixRank1UpdateOne x out
  | hermitianRank2 x y none => hermitianMatrixRank2Update x y out
  | hermitianRank2 x y (some E) => hermitianMatrixRank2UpdateFrom x y E out
  | hermitianRankK alpha k A none => hermitianMatrixRankKUpdate alpha k A out
  | hermitianRankK alpha k A (some E) => hermitianMatrixRankKUpdateFrom alpha k A E out
  | hermitianRankKOne k A => hermitianMatrixRankKUpdateOne k A out

/-- The matrix that the update adds to. -/
def source : RankUpdate R → Option (Source R)
  | symmetricRank1 _ _ E | symmetricRank2 _ _ E | symmetricRankK _ _ _ E
  | symmetricRank2K _ _ _ E | hermitianRank1 _ _ E | hermitianRank2 _ _ E
  | hermitianRankK _ _ _ E => E
  | symmetricRank2Scaled .. | symmetricRank2KScaled .. | hermitianRank1One _
  | hermitianRankKOne .. => none

/-- The same call with another `E`, where the form has one. -/
def withSource (E' : Option (Source R)) : RankUpdate R → RankUpdate R
  | symmetricRank1 alpha x _ => symmetricRank1 alpha x E'
  | symmetricRank2 x y _ => symmetricRank2 x y E'
  | symmetricRank2Scaled alpha x y => symmetricRank2Scaled alpha x y
  | symmetricRankK alpha k A _ => symmetricRankK alpha k A E'
  | symmetricRank2K k A B _ => symmetricRank2K k A B E'
  | symmetricRank2KScaled alpha k A B => symmetricRank2KScaled alpha k A B
  | hermitianRank1 alpha x _ => hermitianRank1 alpha x E'
  | hermitianRank1One x => hermitianRank1One x
  | hermitianRank2 x y _ => hermitianRank2 x y E'
  | hermitianRankK alpha k A _ => hermitianRankK alpha k A E'
  | hermitianRankKOne k A => hermitianRankKOne k A

/-- `E(i, j)` before the call, or zero. -/
def base (op : RankUpdate R) (out : Output t n) (s : Store R) (p : ℕ × ℕ) : R :=
  match op.source with
  | none => 0
  | some E => E.read out s p

/-- The entry of the matrix that the update adds. -/
def term (p : ℕ × ℕ) : RankUpdate R → R
  | symmetricRank1 alpha x _ => alpha * (x p.1 * x p.2)
  | symmetricRank2 x y _ => x p.1 * y p.2 + y p.1 * x p.2
  | symmetricRank2Scaled alpha x y => alpha * (x p.1 * y p.2 + y p.1 * x p.2)
  | symmetricRankK alpha k A _ => alpha * ∑ l ∈ Finset.range k, A (p.1, l) * A (p.2, l)
  | symmetricRank2K k A B _ => ∑ l ∈ Finset.range k, A (p.1, l) * B (p.2, l) +
      ∑ l ∈ Finset.range k, B (p.1, l) * A (p.2, l)
  | symmetricRank2KScaled alpha k A B => alpha * (∑ l ∈ Finset.range k, A (p.1, l) * B (p.2, l) +
      ∑ l ∈ Finset.range k, B (p.1, l) * A (p.2, l))
  | hermitianRank1 alpha x _ => re alpha * (x p.1 * star (x p.2))
  | hermitianRank1One x => x p.1 * star (x p.2)
  | hermitianRank2 x y _ => x p.1 * star (y p.2) + y p.1 * star (x p.2)
  | hermitianRankK alpha k A _ =>
      re alpha * ∑ l ∈ Finset.range k, A (p.1, l) * star (A (p.2, l))
  | hermitianRankKOne k A => ∑ l ∈ Finset.range k, A (p.1, l) * star (A (p.2, l))

def isHermitian : RankUpdate R → Bool
  | hermitianRank1 .. | hermitianRank1One _ | hermitianRank2 .. | hermitianRankK ..
  | hermitianRankKOne .. => true
  | symmetricRank1 .. | symmetricRank2 .. | symmetricRank2Scaled .. | symmetricRankK ..
  | symmetricRank2K .. | symmetricRank2KScaled .. => false

/-- What the entry is after the call, when it was `e` in `E`. -/
def entry (op : RankUpdate R) (e : R) (p : ℕ × ℕ) : R :=
  if op.isHermitian then realDiagonal p.1 p.2 (e + op.term p) else e + op.term p

end RankUpdate

/-! ## The writes -/

/-- The entries of the triangle in the order of the loops. -/
def visits (t : Triangle) (n : ℕ) : List (ℕ × ℕ) :=
  match t with
  | .upper => nest n (fun i => i) fun _ => n
  | .lower => nest n (fun _ => 0) fun i => i + 1

theorem mem_visits {i j : ℕ} : (i, j) ∈ visits t n ↔ i < n ∧ j < n ∧ t.Contains i j := by
  cases t <;> simp only [visits, mem_nest, contains_upper, contains_lower] <;> omega

theorem nodup_visits (t : Triangle) (n : ℕ) : (visits t n).Nodup := by
  cases t <;> exact nodup_nest n _ _

theorem triangleLoop_eq (body : ℕ → ℕ → Store R → Store R) (s : Store R) :
    triangleLoop t n body s = (visits t n).foldl (fun s p => body p.1 p.2 s) s := by
  cases t
  · exact forUp_nest (fun i => i) (fun _ => n) body s
  · exact forUp_nest (fun _ => 0) (fun i => i + 1) body s

theorem foldl_store (offset : ℕ × ℕ → ℕ) (value : ℕ × ℕ → R → R) (ps : List (ℕ × ℕ))
    (s : Store R) :
    ps.foldl (fun s p => s.write (offset p) (value p (s.cell (offset p)))) s =
      { cell := ps.foldl (write offset value) s.cell, writes := s.writes ++ ps.map offset } := by
  induction ps generalizing s with
  | nil => rw [List.map_nil, List.append_nil]; rfl
  | cons p ps ih =>
    rw [List.foldl_cons, ih, List.map_cons]
    simp only [Store.write, List.append_assoc, List.singleton_append]
    rfl

namespace Output

/-- Entries of the triangle are stored apart. -/
theorem offset_injOn (out : Output t n) {p q : ℕ × ℕ} (hp : p ∈ visits t n)
    (hq : q ∈ visits t n) (h : out.offset p = out.offset q) : p = q := by
  obtain ⟨i, j⟩ := p
  obtain ⟨i', j'⟩ := q
  rw [mem_visits] at hp hq
  cases out with
  | dense offset unique => exact unique _ _ hp.1 hp.2.1 hq.1 hq.2.1 h
  | packed m triangle extent =>
    simp only [offset] at h
    subst triangle extent
    have hs : m.Stored i j := hp
    have hs' : m.Stored i' j' := hq
    simp only [hs.call_eq, hs'.call_eq, Option.getD_some] at h
    have hexact : m.exact i j = m.exact i' j' := by
      have h0 := hs.exact_nonneg
      have h0' := hs'.exact_nonneg
      omega
    have heq := hs.eq_of_call_eq hs' (by rw [hs.call_eq, hs'.call_eq, hexact])
    rw [heq.1, heq.2]

theorem nodup_offsets (out : Output t n) : ((visits t n).map out.offset).Nodup :=
  (nodup_visits t n).map_on fun _ hp _ hq => out.offset_injOn hp hq

/-- The entries of a packed triangle fill its span. -/
theorem mem_packed_offsets {m : PackedMapping} {k : ℕ} (ht : m.triangle = t)
    (hn : m.extent = n) :
    k ∈ (visits t n).map (Output.packed m ht hn).offset ↔ k < n * (n + 1) / 2 := by
  subst ht hn
  rw [List.mem_map]
  constructor
  · rintro ⟨⟨i, j⟩, hp, rfl⟩
    have hs : m.Stored i j := mem_visits.mp hp
    have hlt := hs.exact_lt
    have h0 := hs.exact_nonneg
    simp only [offset, hs.call_eq, Option.getD_some]
    unfold PackedMapping.spanSize at hlt
    omega
  · intro hk
    obtain ⟨i, j, hs, hcall⟩ := PackedMapping.exists_call_eq (m := m) hk
    exact ⟨(i, j), mem_visits.mpr hs, by simp [offset, hcall]⟩

end Output

namespace RankUpdate

variable [CommRing R] [StarRing R] [RealPart R]

/-- What an update reads of `E`, if the output cell holds `old`. -/
def seen (op : RankUpdate R) (p : ℕ × ℕ) (old : R) : R :=
  match op.source with
  | none => 0
  | some (.matrix E) => E p
  | some .output => old

omit [StarRing R] [RealPart R] in
theorem base_eq_seen (op : RankUpdate R) (out : Output t n) (s : Store R) (p : ℕ × ℕ) :
    op.base out s p = op.seen p (s.cell (out.offset p)) := by
  unfold base seen
  cases op.source with
  | none => rfl
  | some E => cases E <;> rfl

/-- The loops of every function: the entries of the triangle get their new values. -/
def Writes (op : RankUpdate R) (out : Output t n) (f : Store R → Store R) : Prop :=
  f = triangleLoop t n fun i j s =>
    s.write (out.offset (i, j)) (op.entry (op.base out s (i, j)) (i, j))

theorem writes_overwrite {op : RankUpdate R} {out : Output t n} {f : ℕ → ℕ → R}
    (hsource : op.source = none) (h : ∀ i j, f i j = op.entry 0 (i, j)) :
    op.Writes out (out.overwrite f) := by
  have hbody : (fun i j (s : Store R) => s.write (out.offset (i, j)) (f i j)) =
      fun i j s => s.write (out.offset (i, j)) (op.entry (op.base out s (i, j)) (i, j)) := by
    funext i j s
    rw [h, base, hsource]
  exact congrArg (triangleLoop t n) hbody

theorem writes_updateFrom {op : RankUpdate R} {out : Output t n} {E : Source R}
    {f : R → ℕ → ℕ → R} (hsource : op.source = some E)
    (h : ∀ e i j, f e i j = op.entry e (i, j)) : op.Writes out (out.updateFrom E f) := by
  have hbody : (fun i j (s : Store R) =>
      s.write (out.offset (i, j)) (f (E.read out s (i, j)) i j)) =
      fun i j s => s.write (out.offset (i, j)) (op.entry (op.base out s (i, j)) (i, j)) := by
    funext i j s
    rw [h, base, hsource]
  exact congrArg (triangleLoop t n) hbody

omit [StarRing R] [RealPart R] in
theorem rankKSum_eq (k : ℕ) (A : ℕ × ℕ → R) (i j : ℕ) :
    rankKSum k A i j = ∑ l ∈ Finset.range k, A (i, l) * A (j, l) := forUp_sum k _

omit [StarRing R] [RealPart R] in
theorem rank2KSum_eq (k : ℕ) (A B : ℕ × ℕ → R) (i j : ℕ) :
    rank2KSum k A B i j =
      ∑ l ∈ Finset.range k, A (i, l) * B (j, l) + ∑ l ∈ Finset.range k, B (i, l) * A (j, l) := by
  rw [rank2KSum, forUp_sum, Finset.sum_add_distrib]

omit [RealPart R] in
theorem hermitianRankKSum_eq (k : ℕ) (A : ℕ × ℕ → R) (i j : ℕ) :
    hermitianRankKSum k A i j = ∑ l ∈ Finset.range k, A (i, l) * star (A (j, l)) :=
  forUp_sum k _

theorem symmetric_entry {op : RankUpdate R} (h : op.isHermitian = false) (e : R) (p : ℕ × ℕ) :
    op.entry e p = e + op.term p := by
  rw [entry, h, if_neg Bool.false_ne_true]

theorem hermitian_entry {op : RankUpdate R} (h : op.isHermitian = true) (e : R) (p : ℕ × ℕ) :
    op.entry e p = realDiagonal p.1 p.2 (e + op.term p) := by
  rw [entry, h, if_pos rfl]

/-- Each function computes its entries in its own order of operations. -/
theorem run_writes (op : RankUpdate R) (out : Output t n) : op.Writes out (op.run out) := by
  cases op with
  | symmetricRank1 alpha x E =>
    cases E with
    | none =>
      exact writes_overwrite rfl fun i j => by
        rw [symmetric_entry rfl, term, zero_add, mul_assoc]
    | some E =>
      refine writes_updateFrom (E := E)
        (f := fun e i j => e + alpha * x i * x j) rfl fun e i j => ?_
      rw [symmetric_entry rfl, term, mul_assoc]
  | symmetricRank2 x y E =>
    cases E with
    | none =>
      exact writes_overwrite rfl fun i j => by
        rw [symmetric_entry rfl, term, zero_add]
    | some E =>
      refine writes_updateFrom (E := E)
        (f := fun e i j => e + x i * y j + y i * x j) rfl fun e i j => ?_
      rw [symmetric_entry rfl, term, add_assoc]
  | symmetricRank2Scaled alpha x y =>
    exact writes_overwrite rfl fun i j => by rw [symmetric_entry rfl, term, zero_add]
  | symmetricRankK alpha k A E =>
    cases E with
    | none =>
      exact writes_overwrite rfl fun i j => by
        rw [symmetric_entry rfl, term, zero_add, rankKSum_eq]
    | some E =>
      refine writes_updateFrom (E := E)
        (f := fun e i j => e + alpha * rankKSum k A i j) rfl fun e i j => ?_
      rw [symmetric_entry rfl, term, rankKSum_eq]
  | symmetricRank2K k A B E =>
    cases E with
    | none =>
      exact writes_overwrite rfl fun i j => by
        rw [symmetric_entry rfl, term, zero_add, rank2KSum_eq]
    | some E =>
      refine writes_updateFrom (E := E)
        (f := fun e i j => e + rank2KSum k A B i j) rfl fun e i j => ?_
      rw [symmetric_entry rfl, term, rank2KSum_eq]
  | symmetricRank2KScaled alpha k A B =>
    exact writes_overwrite rfl fun i j => by
      rw [symmetric_entry rfl, term, zero_add, rank2KSum_eq]
  | hermitianRank1 alpha x E =>
    cases E with
    | none =>
      exact writes_overwrite rfl fun i j => by
        rw [hermitian_entry rfl, term, zero_add, mul_assoc]
    | some E =>
      refine writes_updateFrom (E := E)
        (f := fun e i j => realDiagonal i j (e + re alpha * x i * star (x j))) rfl fun e i j => ?_
      rw [hermitian_entry rfl, term, mul_assoc]
  | hermitianRank1One x =>
    exact writes_overwrite rfl fun i j => by
      rw [hermitian_entry rfl, term, zero_add, re_one, one_mul]
  | hermitianRank2 x y E =>
    cases E with
    | none =>
      exact writes_overwrite rfl fun i j => by
        rw [hermitian_entry rfl, term, zero_add]
    | some E =>
      refine writes_updateFrom (E := E)
        (f := fun e i j => realDiagonal i j (e + x i * star (y j) + y i * star (x j))) rfl fun e i j => ?_
      rw [hermitian_entry rfl, term, add_assoc]
  | hermitianRankK alpha k A E =>
    cases E with
    | none =>
      exact writes_overwrite rfl fun i j => by
        rw [hermitian_entry rfl, term, zero_add, hermitianRankKSum_eq]
    | some E =>
      refine writes_updateFrom (E := E)
        (f := fun e i j => realDiagonal i j (e + re alpha * hermitianRankKSum k A i j)) rfl fun e i j => ?_
      rw [hermitian_entry rfl, term, hermitianRankKSum_eq]
  | hermitianRankKOne k A =>
    exact writes_overwrite rfl fun i j => by
      rw [hermitian_entry rfl, term, zero_add, re_one, one_mul, hermitianRankKSum_eq]

/-- The store after a call. -/
theorem run_eq (op : RankUpdate R) (out : Output t n) (s : Store R) :
    op.run out s =
      { cell := (visits t n).foldl (write out.offset fun p old => op.entry (op.seen p old) p) s.cell
        writes := s.writes ++ (visits t n).map out.offset } := by
  rw [op.run_writes out, triangleLoop_eq, ← foldl_store]
  refine congrArg (fun f => (visits t n).foldl f s) ?_
  funext s p
  rw [base_eq_seen]

theorem run_entry (op : RankUpdate R) (out : Output t n) (s : Store R) {p : ℕ × ℕ}
    (hp : p ∈ visits t n) :
    (op.run out s).cell (out.offset p) = op.entry (op.base out s p) p := by
  rw [run_eq, base_eq_seen]
  exact foldl_write out.nodup_offsets hp

theorem run_frame (op : RankUpdate R) (out : Output t n) (s : Store R) {k : ℕ}
    (hk : k ∉ (visits t n).map out.offset) : (op.run out s).cell k = s.cell k := by
  rw [run_eq]
  exact foldl_write_frame hk

/-! ## The two triangles -/

/-- What taking the transpose does to an entry. -/
def conj (op : RankUpdate R) (e : R) : R :=
  if op.isHermitian then star e else e

omit [CommRing R] [StarRing R] [RealPart R] in
@[simp] theorem isHermitian_withSource (op : RankUpdate R) (E : Option (Source R)) :
    (op.withSource E).isHermitian = op.isHermitian := by
  cases op <;> rfl

@[simp] theorem term_withSource (op : RankUpdate R) (E : Option (Source R)) (p : ℕ × ℕ) :
    (op.withSource E).term p = op.term p := by
  cases op <;> rfl

omit [StarRing R] [RealPart R] in
theorem rankKSum_swap (k : ℕ) (A : ℕ × ℕ → R) (i j : ℕ) :
    ∑ l ∈ Finset.range k, A (j, l) * A (i, l) = ∑ l ∈ Finset.range k, A (i, l) * A (j, l) :=
  Finset.sum_congr rfl fun l _ => mul_comm (A (j, l)) (A (i, l))

omit [RealPart R] in
theorem hermitianRankKSum_swap (k : ℕ) (A : ℕ × ℕ → R) (i j : ℕ) :
    ∑ l ∈ Finset.range k, A (j, l) * star (A (i, l)) =
      star (∑ l ∈ Finset.range k, A (i, l) * star (A (j, l))) := by
  rw [star_sum]
  refine Finset.sum_congr rfl fun l _ => ?_
  rw [star_mul', star_star, mul_comm]

omit [StarRing R] [RealPart R] in
theorem rank2KSum_swap (k : ℕ) (A B : ℕ × ℕ → R) (i j : ℕ) :
    ∑ l ∈ Finset.range k, A (j, l) * B (i, l) + ∑ l ∈ Finset.range k, B (j, l) * A (i, l) =
      ∑ l ∈ Finset.range k, A (i, l) * B (j, l) + ∑ l ∈ Finset.range k, B (i, l) * A (j, l) := by
  rw [add_comm]
  exact congrArg₂ (· + ·) (Finset.sum_congr rfl fun l _ => mul_comm _ _)
    (Finset.sum_congr rfl fun l _ => mul_comm _ _)

/-- The added matrix is symmetric or Hermitian. -/
theorem term_swap (op : RankUpdate R) (i j : ℕ) : op.term (j, i) = op.conj (op.term (i, j)) := by
  cases op with
  | symmetricRank1 alpha x E =>
    change alpha * (x j * x i) = alpha * (x i * x j)
    rw [mul_comm (x j)]
  | symmetricRank2 x y E =>
    change x j * y i + y j * x i = x i * y j + y i * x j
    rw [add_comm, mul_comm (y j), mul_comm (x j)]
  | symmetricRank2Scaled alpha x y =>
    change alpha * (x j * y i + y j * x i) = alpha * (x i * y j + y i * x j)
    rw [add_comm (x j * y i), mul_comm (y j), mul_comm (x j)]
  | symmetricRankK alpha k A E => exact congrArg (alpha * ·) (rankKSum_swap k A i j)
  | symmetricRank2K k A B E => exact rank2KSum_swap k A B i j
  | symmetricRank2KScaled alpha k A B => exact congrArg (alpha * ·) (rank2KSum_swap k A B i j)
  | hermitianRank1 alpha x E =>
    change re alpha * (x j * star (x i)) = star (re alpha * (x i * star (x j)))
    rw [star_mul', star_re, star_mul', star_star, mul_comm (x j)]
  | hermitianRank1One x =>
    change x j * star (x i) = star (x i * star (x j))
    rw [star_mul', star_star, mul_comm]
  | hermitianRank2 x y E =>
    change x j * star (y i) + y j * star (x i) = star (x i * star (y j) + y i * star (x j))
    rw [star_add, star_mul', star_mul', star_star, star_star, add_comm, mul_comm (x j),
      mul_comm (y j)]
  | hermitianRankK alpha k A E =>
    change re alpha * ∑ l ∈ Finset.range k, A (j, l) * star (A (i, l)) =
      star (re alpha * ∑ l ∈ Finset.range k, A (i, l) * star (A (j, l)))
    rw [star_mul', star_re, hermitianRankKSum_swap]
  | hermitianRankKOne k A => exact hermitianRankKSum_swap k A i j

/-- Where the entries of `E` are mirror images, the entries after the call are. -/
theorem entry_swap (op : RankUpdate R) (E : Option (Source R)) (e : R) (i j : ℕ) :
    (op.withSource E).entry (op.conj e) (j, i) = op.conj (op.entry e (i, j)) := by
  have hterm := op.term_swap i j
  rw [entry, entry, isHermitian_withSource, term_withSource, hterm]
  cases hh : op.isHermitian with
  | false => simp only [conj, hh, Bool.false_eq_true, if_false]
  | true =>
    simp only [conj, hh, if_true]
    rw [← star_add]
    unfold realDiagonal
    obtain rfl | hne := eq_or_ne i j
    · rw [if_pos rfl, if_pos rfl, re_star, star_re]
    · rw [if_neg hne.symm, if_neg hne]

/-! ## The updates -/

/-- What a call promises for an output with the mapping `out` and the memory `s`. -/
structure Guarantees (op : RankUpdate R) (out : Output t n) (s : Store R) : Prop where
  triangle : ∀ i < n, ∀ j < n, t.Contains i j →
    (op.run out s).cell (out.offset (i, j)) = op.entry (op.base out s (i, j)) (i, j)
  outside : ∀ k, (∀ i < n, ∀ j < n, t.Contains i j → out.offset (i, j) ≠ k) →
    (op.run out s).cell k = s.cell k
  denseOutside : ∀ offset unique, out = .dense offset unique →
    ∀ i < n, ∀ j < n, ¬t.Contains i j →
      (op.run out s).cell (out.offset (i, j)) = s.cell (out.offset (i, j))
  writes : ∃ W, (op.run out s).writes = s.writes ++ W ∧ W.Nodup ∧
    ∀ k, k ∈ W ↔ ∃ i < n, ∃ j < n, t.Contains i j ∧ out.offset (i, j) = k
  packedWrites : ∀ m ht hn, out = .packed m ht hn →
    ∃ W, (op.run out s).writes = s.writes ++ W ∧ W.Perm (List.range (n * (n + 1) / 2))
  agree : ∀ (out' : Output t n) (s' : Store R) (E : Option (Source R)),
    (∀ i < n, ∀ j < n, t.Contains i j →
      (op.withSource E).base out' s' (i, j) = op.base out s (i, j)) →
    ∀ i < n, ∀ j < n, t.Contains i j →
      ((op.withSource E).run out' s').cell (out'.offset (i, j)) =
        (op.run out s).cell (out.offset (i, j))
  transposed : ∀ (out' : Output t.other n) (s' : Store R) (E : Option (Source R)),
    (∀ i < n, ∀ j < n, t.Contains i j →
      (op.withSource E).base out' s' (j, i) = op.conj (op.base out s (i, j))) →
    ∀ i < n, ∀ j < n, t.Contains i j →
      ((op.withSource E).run out' s').cell (out'.offset (j, i)) =
        op.conj ((op.run out s).cell (out.offset (i, j)))

theorem entry_withSource (op : RankUpdate R) (E : Option (Source R)) (e : R) (p : ℕ × ℕ) :
    (op.withSource E).entry e p = op.entry e p := by
  rw [entry, entry, isHermitian_withSource, term_withSource]

theorem run_triangle (op : RankUpdate R) (out : Output t n) (s : Store R) {i j : ℕ} (hi : i < n)
    (hj : j < n) (ht : t.Contains i j) :
    (op.run out s).cell (out.offset (i, j)) = op.entry (op.base out s (i, j)) (i, j) :=
  op.run_entry out s (mem_visits.mpr ⟨hi, hj, ht⟩)

theorem mem_offsets {out : Output t n} {k : ℕ} :
    k ∈ (visits t n).map out.offset ↔ ∃ i < n, ∃ j < n, t.Contains i j ∧ out.offset (i, j) = k := by
  rw [List.mem_map]
  constructor
  · rintro ⟨⟨i, j⟩, hp, hk⟩
    obtain ⟨hi, hj, ht⟩ := mem_visits.mp hp
    exact ⟨i, hi, j, hj, ht, hk⟩
  · rintro ⟨i, hi, j, hj, ht, hk⟩
    exact ⟨(i, j), mem_visits.mpr ⟨hi, hj, ht⟩, hk⟩

theorem run_writes_eq (op : RankUpdate R) (out : Output t n) (s : Store R) :
    (op.run out s).writes = s.writes ++ (visits t n).map out.offset := by
  rw [run_eq]

/-- Every rank update gives the entries of one triangle their values and writes nothing else. -/
theorem rank_update_guarantees (op : RankUpdate R) (out : Output t n) (s : Store R) :
    op.Guarantees out s where
  triangle i hi j hj ht := op.run_triangle out s hi hj ht
  outside k hk := by
    refine op.run_frame out s fun hmem => ?_
    obtain ⟨i, hi, j, hj, ht, he⟩ := mem_offsets.mp hmem
    exact hk i hi j hj ht he
  denseOutside offset unique hout i hi j hj ht := by
    subst hout
    refine op.run_frame _ s fun hmem => ?_
    obtain ⟨i', hi', j', hj', ht', he⟩ := mem_offsets.mp hmem
    obtain ⟨rfl, rfl⟩ := Prod.mk.inj (unique _ _ hi' hj' hi hj he)
    exact ht ht'
  writes := ⟨_, op.run_writes_eq out s, out.nodup_offsets, fun _ => mem_offsets⟩
  packedWrites m ht hn hout := by
    refine ⟨_, op.run_writes_eq out s,
      (List.perm_ext_iff_of_nodup out.nodup_offsets List.nodup_range).mpr fun k => ?_⟩
    rw [hout, Output.mem_packed_offsets, List.mem_range]
  agree out' s' E h i hi j hj ht := by
    rw [run_triangle _ out' s' hi hj ht, run_triangle op out s hi hj ht, h i hi j hj ht,
      entry_withSource]
  transposed out' s' E h i hi j hj ht := by
    rw [run_triangle _ out' s' hj hi (contains_other.mpr ht), run_triangle op out s hi hj ht,
      h i hi j hj ht, entry_swap]

end RankUpdate

end CCForge.Linalg
