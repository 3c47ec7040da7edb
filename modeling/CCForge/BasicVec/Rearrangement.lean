import CCForge.BasicVec.Lanes
import Mathlib.Data.List.OfFn
import Mathlib.Data.List.Flatten

/-!
# Rearranging lanes

`compress` packs the lanes that a mask selects, and `expand` unpacks them. `chunk` cuts a vector into
pieces of one size and a shorter tail, and `cat` joins pieces of any sizes. The overloads for masks
are the same loops.
-/

namespace CCForge.BasicVec

open CCForge.Loops

variable {α : Type} {n size : ℕ}

/-- The two loops of `compress`. -/
def compressLanes (initial value : Vec α n) (mask : Vec Bool n) (fill : α) : Option (Vec α n) :=
  (cursorUp n (lane mask) (fun i out result => (lane value i).bind (setLane result out)) initial).bind
    fun (result, out) => tryUp (n - out) (fun k result => setLane result (out + k) fill) result

/-- `compress` of a vector. -/
def compress [Inhabited α] (value : Vec α n) (mask : Vec Bool n) (fill : α) : Option (Vec α n) :=
  compressLanes default value mask fill

/-- `compress` of a vector without a fill value. -/
def compressDefault [Inhabited α] (value : Vec α n) (mask : Vec Bool n) : Option (Vec α n) :=
  compress value mask default

/-- `compress` of a mask. -/
def compressMask (value mask : Vec Bool n) (fill : Bool) : Option (Vec Bool n) :=
  compressLanes (fun _ => fill) value mask fill

/-- The loop of `expand`. -/
def expandLanes (value : Vec α n) (mask : Vec Bool n) (original : Vec α n) : Option (Vec α n) :=
  (cursorUp n (lane mask) (fun i source result => (lane value source).bind (setLane result i))
    original).map Prod.fst

/-- `expand` of a vector. -/
def expand (value : Vec α n) (mask : Vec Bool n) (original : Vec α n) : Option (Vec α n) :=
  expandLanes value mask original

/-- `expand` of a vector without an original. -/
def expandDefault [Inhabited α] (value : Vec α n) (mask : Vec Bool n) : Option (Vec α n) :=
  expand value mask default

/-- `expand` of a mask. -/
def expandMask (value mask original : Vec Bool n) : Option (Vec Bool n) :=
  expandLanes value mask original

/-- A vector or mask of any size. -/
abbrev Piece (α : Type) := Σ size, Vec α size

/-- The generator constructor. -/
def generate [Inhabited α] (size : ℕ) (lane : ℕ → Option α) : Option (Vec α size) :=
  tryUp size (fun i result => (lane i).bind (setLane result i)) default

/-- `chunk_array_impl` and `chunk_tuple_impl`. -/
def chunkArrayImpl [Inhabited α] (size : ℕ) (value : Vec α n) (count : ℕ) : Option (List (Vec α size)) :=
  (List.range count).mapM fun i => generate size fun j => lane value (i * size + j)

/-- `make_chunk`. -/
def makeChunk [Inhabited α] (size : ℕ) (value : Vec α n) (offset : ℕ) : Option (Vec α size) :=
  generate size fun i => lane value (offset + i)

/-- `chunk`. Pieces of one size are an array, and with a tail they are a tuple. -/
def chunk [Inhabited α] (size : ℕ) (value : Vec α n) : Option (List (Piece α)) :=
  (chunkArrayImpl size value (n / size)).bind fun chunks =>
    if n % size = 0 then some (chunks.map (Sigma.mk size))
    else (makeChunk (n % size) value (n / size * size)).map fun tail =>
      chunks.map (Sigma.mk size) ++ [⟨n % size, tail⟩]

/-- The sum of the sizes. -/
def totalSize (pieces : List (Piece α)) : ℕ := (pieces.map Sigma.fst).sum

/-- `append` in `cat_impl`, with the offset. -/
def append {total : ℕ} (state : Vec α total × ℕ) (current : Piece α) : Option (Vec α total × ℕ) :=
  (tryUp current.1 (fun i result => (lane current.2 i).bind (setLane result (state.2 + i))) state.1).map
    fun result => (result, state.2 + current.1)

/-- `cat`. -/
def cat [Inhabited α] (first : Piece α) (rest : List (Piece α)) : Option (Piece α) :=
  ((first :: rest).foldlM append ((default : Vec α (totalSize (first :: rest))), 0)).map
    fun (result, _) => ⟨totalSize (first :: rest), result⟩

/-! ## compress and expand -/

variable {value original : Vec α n} {mask : Vec Bool n} {fill : α} {i k : ℕ}

/-- The mask has the lane. -/
abbrev SelectsLane (mask : Vec Bool n) (i : ℕ) : Prop := lane mask i = some true

/-- The number of selected lanes before `i`. -/
def selectedBefore (mask : Vec Bool n) (i : ℕ) : ℕ := Nat.count (SelectsLane mask) i

/-- The number of selected lanes. -/
def reduceCount (mask : Vec Bool n) : ℕ := selectedBefore mask n

theorem lane_mask (h : i < n) : lane mask i = some (decide (SelectsLane mask i)) := by
  simp [SelectsLane, lane_of_lt h]

theorem selectsLane_iff (i : Fin n) : SelectsLane mask i ↔ mask i = true := by
  rw [SelectsLane, lane_fin, Option.some.injEq]

theorem selectedBefore_lt (h : i < n) : selectedBefore mask i < n := lt_of_le_of_lt (Nat.count_le _) h

theorem reduceCount_le : reduceCount mask ≤ n := Nat.count_le _

theorem selectedBefore_lt_reduceCount (i : Fin n) (h : mask i = true) :
    selectedBefore mask i < reduceCount mask :=
  count_lt_count i.isLt ((selectsLane_iff i).mpr h)

/-- Different selected lanes go to different places. -/
theorem exists_selected (h : k < reduceCount mask) :
    ∃ i : Fin n, mask i = true ∧ selectedBefore mask i = k := by
  obtain ⟨i, hi, hp, hc⟩ := exists_of_lt_count h
  exact ⟨⟨i, hi⟩, (selectsLane_iff ⟨i, hi⟩).mp hp, hc⟩

/-- The selected lanes of `value` in order, and `fill` after them. -/
structure IsPacked (value : Vec α n) (mask : Vec Bool n) (fill : α) (result : Vec α n) : Prop where
  selected : ∀ i : Fin n, mask i = true → lane result (selectedBefore mask i) = some (value i)
  rest : ∀ k : Fin n, reduceCount mask ≤ k → result k = fill

/-- The loop of `compress` up to the fill. -/
theorem pack_spec (initial value : Vec α n) (mask : Vec Bool n) : ∃ result,
    cursorUp n (lane mask) (fun i out result => (lane value i).bind (setLane result out)) initial =
      some (result, reduceCount mask) ∧
    ∀ i : Fin n, mask i = true → lane result (selectedBefore mask i) = some (value i) := by
  obtain ⟨result, hresult, hI⟩ := cursorUp_induction (n := n) (p := SelectsLane mask) (s := initial)
    (I := fun j result => ∀ i : Fin n, i < j → mask i = true →
      lane result (selectedBefore mask i) = some (value i))
    (q := lane mask)
    (f := fun i out result => (lane value i).bind (setLane result out))
    (by simp) (fun i hi => lane_mask hi)
    (by
      intro j result hj hp hI i hi hm
      rcases Nat.lt_succ_iff_lt_or_eq.mp hi with hlt | rfl
      · exact hI i hlt hm
      · exact absurd ((selectsLane_iff i).mpr hm) hp)
    (by
      intro j result hj hp hI
      have hout : Nat.count (SelectsLane mask) j < n := selectedBefore_lt hj
      refine ⟨_, by rw [lane_of_lt hj, Option.bind_some, setLane_of_lt hout], fun i hi hm => ?_⟩
      rw [lane_update]
      rcases Nat.lt_succ_iff_lt_or_eq.mp hi with hlt | rfl
      · have hbefore : selectedBefore mask i < Nat.count (SelectsLane mask) j :=
          count_lt_count hlt ((selectsLane_iff i).mpr hm)
        rw [if_neg hbefore.ne]
        exact hI i hlt hm
      · exact if_pos rfl)
  exact ⟨result, hresult, fun i hm => hI i i.isLt hm⟩

theorem compressLanes_spec (initial value : Vec α n) (mask : Vec Bool n) (fill : α) :
    ∃ result, compressLanes initial value mask fill = some result ∧ IsPacked value mask fill result := by
  obtain ⟨packed, hpacked, hselected⟩ := pack_spec initial value mask
  have hle : reduceCount mask ≤ n := reduceCount_le
  obtain ⟨result, hresult, hI⟩ := tryUp_induction (n := n - reduceCount mask) (s := packed)
    (I := fun j result => ∀ k, lane result k =
      if reduceCount mask ≤ k ∧ k < reduceCount mask + j then some fill else lane packed k)
    (f := fun j result => setLane result (reduceCount mask + j) fill)
    (by
      intro k
      rw [if_neg (by omega)])
    (by
      intro j result hj hI
      refine ⟨_, setLane_of_lt (by omega), fun k => ?_⟩
      rw [lane_update, hI k]
      by_cases hk : k = reduceCount mask + j
      · rw [if_pos hk, if_pos (by omega)]
      · rw [if_neg hk]
        exact if_congr (by omega) rfl rfl)
  refine ⟨result, by rw [compressLanes, hpacked]; exact hresult, fun i hm => ?_, fun k hk => ?_⟩
  · rw [hI, if_neg fun h => absurd (selectedBefore_lt_reduceCount i hm) (Nat.not_lt.mpr h.1)]
    exact hselected i hm
  · have hlane := hI k
    rw [if_pos ⟨hk, by omega⟩, lane_fin] at hlane
    exact Option.some.inj hlane

/-- The low lanes of `value` at the selected places in order, and `original` elsewhere. -/
structure IsUnpacked (value : Vec α n) (mask : Vec Bool n) (original result : Vec α n) : Prop where
  selected : ∀ i : Fin n, mask i = true → lane value (selectedBefore mask i) = some (result i)
  rest : ∀ i : Fin n, mask i = false → result i = original i

theorem expandLanes_spec (value : Vec α n) (mask : Vec Bool n) (original : Vec α n) :
    ∃ result, expandLanes value mask original = some result ∧ IsUnpacked value mask original result := by
  obtain ⟨result, hresult, hI⟩ := cursorUp_induction (n := n) (p := SelectsLane mask) (s := original)
    (I := fun j result => ∀ i : Fin n, lane result i =
      if i < j ∧ mask i = true then lane value (selectedBefore mask i) else lane original i)
    (q := lane mask)
    (f := fun i source result => (lane value source).bind (setLane result i))
    (by simp) (fun i hi => lane_mask hi)
    (by
      intro j result hj hp hI i
      rw [hI i]
      refine if_congr (and_congr_left fun hm => ?_) rfl rfl
      have hne : (i : ℕ) ≠ j := fun he => hp (he ▸ (selectsLane_iff i).mpr hm)
      omega)
    (by
      intro j result hj hp hI
      have hsource : Nat.count (SelectsLane mask) j < n := selectedBefore_lt hj
      refine ⟨_, by rw [lane_of_lt hsource, Option.bind_some, setLane_of_lt hj], fun i => ?_⟩
      rw [lane_update, hI i]
      by_cases he : (i : ℕ) = j
      · have hm : mask i = true := (selectsLane_iff i).mp (he ▸ hp)
        rw [if_pos he, if_pos ⟨by omega, hm⟩, selectedBefore, he, lane_of_lt hsource]
      · rw [if_neg he]
        exact if_congr (and_congr_left fun _ => by omega) rfl rfl)
  refine ⟨result, by rw [expandLanes, hresult]; rfl, fun i hm => ?_, fun i hm => ?_⟩
  · rw [← lane_fin, hI i, if_pos ⟨i.isLt, hm⟩]
  · have hlane := hI i
    rw [if_neg (by simp [hm]), lane_fin, lane_fin] at hlane
    exact Option.some.inj hlane

/-- Unpacking what was packed. -/
theorem IsUnpacked.of_packed {packed result : Vec α n} (hpacked : IsPacked value mask fill packed)
    (h : IsUnpacked packed mask original result) :
    result = fun i => if mask i then value i else original i := by
  funext i
  cases hm : mask i with
  | true =>
    have heq := (h.selected i hm).symm.trans (hpacked.selected i hm)
    simpa using heq
  | false => simpa using h.rest i hm

/-- Packing what was unpacked. -/
theorem IsPacked.of_unpacked {unpacked result : Vec α n} (hunpacked : IsUnpacked value mask original unpacked)
    (h : IsPacked unpacked mask fill result) (k : Fin n) (hk : k < reduceCount mask) :
    result k = value k := by
  obtain ⟨i, hm, hi⟩ := exists_selected hk
  have heq := (h.selected i hm).trans (hunpacked.selected i hm).symm
  rw [hi, lane_fin, lane_fin] at heq
  exact Option.some.inj heq

/-! ## chunk and cat -/

/-- The lanes as a list. -/
def lanes (v : Vec α n) : List α := List.ofFn v

theorem getElem?_lanes (v : Vec α n) (i : ℕ) : (lanes v)[i]? = lane v i := by
  rw [lanes, List.getElem?_ofFn]
  rfl

theorem length_lanes (v : Vec α n) : (lanes v).length = n := List.length_ofFn

theorem eq_of_lanes {p q : Piece α} (h : lanes p.2 = lanes q.2) : p = q :=
  List.ofFn_inj'.mp h

section
variable [Inhabited α]

/-- The generator constructor on consecutive lanes. -/
theorem generate_spec (size offset : ℕ) (value : Vec α n) (h : offset + size ≤ n) : ∃ piece : Vec α size,
    generate size (fun i => lane value (offset + i)) = some piece ∧
      lanes piece = ((lanes value).drop offset).take size := by
  refine ⟨fun i => value ⟨offset + i, by omega⟩, tryUp_setLane fun i => lane_of_lt (by omega), ?_⟩
  apply List.ext_getElem?
  intro i
  rw [getElem?_lanes, List.getElem?_take, List.getElem?_drop, getElem?_lanes]
  by_cases hi : i < size
  · rw [if_pos hi, lane_of_lt hi, lane_of_lt (show offset + i < n by omega)]
  · rw [if_neg hi, lane_of_le (Nat.not_lt.mp hi)]

theorem chunkArrayImpl_spec (size count : ℕ) (value : Vec α n) (h : count * size ≤ n) :
    ∃ chunks : List (Vec α size), chunkArrayImpl size value count = some chunks ∧
      (chunks.map lanes).flatten = (lanes value).take (count * size) := by
  induction count with
  | zero => exact ⟨[], rfl, by simp⟩
  | succ count ih =>
    rw [Nat.succ_mul] at h
    obtain ⟨chunks, hchunks, hlanes⟩ := ih (by omega)
    obtain ⟨piece, hpiece, hlanes'⟩ := generate_spec size (count * size) value h
    refine ⟨chunks ++ [piece], ?_, ?_⟩
    · rw [chunkArrayImpl] at hchunks ⊢
      rw [List.range_succ, List.mapM_append, hchunks]
      simp [hpiece]
    · rw [List.map_append, List.flatten_append, hlanes, Nat.succ_mul, List.take_add]
      simp [hlanes']

/-- The pieces of a vector are its lanes in order, all of one size but a tail. -/
theorem chunk_spec (size : ℕ) (value : Vec α n) : ∃ chunks tail, chunk size value = some (chunks ++ tail) ∧
    (∀ piece ∈ chunks, piece.1 = size) ∧ tail.map Sigma.fst = (if n % size = 0 then [] else [n % size]) ∧
    ((chunks ++ tail).map fun piece => lanes piece.2).flatten = lanes value := by
  have hdiv : n / size * size + n % size = n := by
    rw [Nat.mul_comm]
    exact Nat.div_add_mod n size
  obtain ⟨chunks, hchunks, hlanes⟩ := chunkArrayImpl_spec size (n / size) value (by omega)
  have hmap : (chunks.map (Sigma.mk size)).map (fun piece : Piece α => lanes piece.2) =
      chunks.map lanes := by
    rw [List.map_map]
    rfl
  have hsize : ∀ piece ∈ chunks.map (Sigma.mk size), piece.1 = size := by
    intro piece hpiece
    obtain ⟨v, -, rfl⟩ := List.mem_map.mp hpiece
    rfl
  by_cases htail : n % size = 0
  · refine ⟨chunks.map (Sigma.mk size), [], ?_, hsize, by simp [htail], ?_⟩
    · simp [chunk, hchunks, htail]
    · rw [List.append_nil, hmap, hlanes, List.take_of_length_le (by rw [length_lanes]; omega)]
  · obtain ⟨piece, hpiece, hlanes'⟩ := generate_spec (n % size) (n / size * size) value hdiv.le
    refine ⟨chunks.map (Sigma.mk size), [⟨n % size, piece⟩], ?_, hsize, by simp [htail], ?_⟩
    · simp [chunk, hchunks, htail, makeChunk, hpiece]
    · have hrest : ((lanes value).drop (n / size * size)).take (n % size) =
          (lanes value).drop (n / size * size) :=
        List.take_of_length_le (by rw [List.length_drop, length_lanes]; omega)
      rw [List.map_append, hmap, List.flatten_append, hlanes]
      simp [hlanes', hrest]

end

theorem append_spec {total : ℕ} {result : Vec α total} {offset : ℕ} {done : List α} (current : Piece α)
    (hroom : offset + current.1 ≤ total) (hoffset : done.length = offset)
    (hdone : ∀ j < offset, lane result j = done[j]?) :
    ∃ result', append (result, offset) current = some (result', offset + current.1) ∧
      ∀ j < offset + current.1, lane result' j = (done ++ lanes current.2)[j]? := by
  obtain ⟨result', hresult', hI⟩ := tryUp_induction (n := current.1) (s := result)
    (I := fun k result' => ∀ j < offset + k, lane result' j = (done ++ lanes current.2)[j]?)
    (f := fun i result => (lane current.2 i).bind (setLane result (offset + i)))
    (by
      intro j hj
      rw [hdone j hj, List.getElem?_append_left (by omega)])
    (by
      intro k result' hk hI
      refine ⟨_, by rw [lane_of_lt hk, Option.bind_some, setLane_of_lt (by omega)], fun j hj => ?_⟩
      rw [lane_update]
      by_cases he : j = offset + k
      -- the lane that was just written is the next of the joined lanes
      · rw [if_pos he, he, List.getElem?_append_right (by omega), getElem?_lanes, hoffset,
          Nat.add_sub_cancel_left, lane_of_lt hk]
      · rw [if_neg he]
        exact hI j (by omega))
  exact ⟨result', by rw [append, hresult']; rfl, hI⟩

theorem foldlM_append_spec {total : ℕ} (pieces : List (Piece α)) {result : Vec α total} {offset : ℕ}
    {done : List α} (hroom : offset + totalSize pieces ≤ total) (hoffset : done.length = offset)
    (hdone : ∀ j < offset, lane result j = done[j]?) :
    ∃ result', pieces.foldlM append (result, offset) = some (result', offset + totalSize pieces) ∧
      ∀ j < offset + totalSize pieces,
        lane result' j = (done ++ (pieces.map fun piece => lanes piece.2).flatten)[j]? := by
  induction pieces generalizing result offset done with
  | nil => exact ⟨result, rfl, by simpa [totalSize] using hdone⟩
  | cons current rest ih =>
    have htotal : totalSize (current :: rest) = current.1 + totalSize rest := by simp [totalSize]
    rw [htotal, ← Nat.add_assoc] at hroom ⊢
    obtain ⟨middle, hmiddle, hlanes⟩ := append_spec current (by omega) hoffset hdone
    obtain ⟨result', hresult', hlanes'⟩ := ih hroom
      (show (done ++ lanes current.2).length = _ by rw [List.length_append, length_lanes, hoffset]) hlanes
    refine ⟨result', ?_, ?_⟩
    · rw [List.foldlM_cons, hmiddle]
      exact hresult'
    · simpa using hlanes'

variable [Inhabited α]

/-- `cat` has a value, and its lanes are those of the pieces in order. -/
theorem cat_spec (first : Piece α) (rest : List (Piece α)) : ∃ joined, cat first rest = some joined ∧
    lanes joined.2 = ((first :: rest).map fun piece => lanes piece.2).flatten := by
  obtain ⟨result, hresult, hlanes⟩ := foldlM_append_spec (first :: rest)
    (by omega) (show ([] : List α).length = 0 from rfl)
    (show ∀ j < 0, lane (default : Vec α (totalSize (first :: rest))) j = _ by simp)
  refine ⟨⟨_, result⟩, by rw [cat, hresult]; rfl, ?_⟩
  have hlength : ((first :: rest).map fun piece => lanes piece.2).flatten.length =
      totalSize (first :: rest) := by
    simp only [List.length_flatten, List.map_map, totalSize]
    congr 2
    funext piece
    exact length_lanes piece.2
  apply List.ext_getElem?
  intro j
  rw [getElem?_lanes]
  by_cases hj : j < totalSize (first :: rest)
  · have hlane := hlanes j (by omega)
    rwa [List.nil_append] at hlane
  · rw [lane_of_le (Nat.not_lt.mp hj), List.getElem?_eq_none (by omega)]

/-- Joining the pieces of a vector gives it back. -/
theorem cat_chunk (hn : 0 < n) (size : ℕ) (value : Vec α n) : ∃ first rest,
    chunk size value = some (first :: rest) ∧ cat first rest = some ⟨n, value⟩ := by
  obtain ⟨chunks, tail, hchunk, -, -, hlanes⟩ := chunk_spec size value
  cases hpieces : chunks ++ tail with
  | nil =>
    have hlength := congrArg List.length hlanes
    rw [hpieces, length_lanes] at hlength
    exact absurd hlength (by simp; omega)
  | cons first rest =>
    rw [hpieces] at hchunk hlanes
    obtain ⟨joined, hjoined, hjoined'⟩ := cat_spec first rest
    refine ⟨first, rest, hchunk, ?_⟩
    rw [hjoined, eq_of_lanes (p := joined) (q := ⟨n, value⟩) (hjoined'.trans hlanes)]

/-- A list has only one cut into parts of one positive size. -/
theorem eq_of_flatten {β : Type*} (hsize : 0 < size) : ∀ {parts parts' : List (List β)},
    (∀ l ∈ parts, l.length = size) → (∀ l ∈ parts', l.length = size) →
      parts.flatten = parts'.flatten → parts = parts'
  | [], [], _, _, _ => rfl
  | [], l :: _, _, h', heq => by
    have hl := h' l List.mem_cons_self
    have hnil : l = [] := (List.append_eq_nil_iff.mp heq.symm).1
    rw [hnil, List.length_nil] at hl
    omega
  | l :: _, [], h, _, heq => by
    have hl := h l List.mem_cons_self
    have hnil : l = [] := (List.append_eq_nil_iff.mp heq).1
    rw [hnil, List.length_nil] at hl
    omega
  | l :: parts, l' :: parts', h, h', heq => by
    have hl := h l List.mem_cons_self
    have hl' := h' l' List.mem_cons_self
    rw [List.flatten_cons, List.flatten_cons] at heq
    obtain ⟨rfl, hrest⟩ := List.append_inj heq (hl.trans hl'.symm)
    rw [eq_of_flatten hsize (fun m hm => h m (List.mem_cons_of_mem _ hm))
      (fun m hm => h' m (List.mem_cons_of_mem _ hm)) hrest]

/-- Cutting joined pieces of one size gives them back. -/
theorem chunk_cat (hsize : 0 < size) (first : Vec α size) (rest : List (Vec α size)) : ∃ joined,
    cat ⟨size, first⟩ (rest.map (Sigma.mk size)) = some joined ∧
      chunk size joined.2 = some ((first :: rest).map (Sigma.mk size)) := by
  obtain ⟨joined, hjoined, hlanes⟩ := cat_spec ⟨size, first⟩ (rest.map (Sigma.mk size))
  obtain ⟨chunks, tail, hchunk, hchunks, htail, hlanes'⟩ := chunk_spec size joined.2
  have hpieces : ((⟨size, first⟩ : Piece α) :: rest.map (Sigma.mk size)) =
      (first :: rest).map (Sigma.mk size) := rfl
  rw [hpieces] at hlanes
  have hdvd : joined.1 % size = 0 := by
    have hlength := congrArg List.length hlanes
    rw [length_lanes, List.length_flatten, List.map_map, List.map_map] at hlength
    have hconst : ((List.length ∘ fun piece : Piece α => lanes piece.2) ∘ Sigma.mk size) =
        Function.const _ size := funext fun v => length_lanes v
    rw [hconst, List.map_const, List.sum_replicate_nat] at hlength
    rw [hlength, Nat.mul_mod_left]
  rw [hdvd, if_pos rfl, List.map_eq_nil_iff] at htail
  subst htail
  rw [List.append_nil] at hchunk hlanes'
  have hlist : chunks.map (fun piece => lanes piece.2) =
      ((first :: rest).map (Sigma.mk size)).map fun piece => lanes piece.2 := by
    refine eq_of_flatten hsize (fun l hl => ?_) (fun l hl => ?_) (hlanes'.trans hlanes)
    · obtain ⟨piece, hpiece, rfl⟩ := List.mem_map.mp hl
      rw [length_lanes, hchunks piece hpiece]
    · obtain ⟨piece, hpiece, rfl⟩ := List.mem_map.mp hl
      obtain ⟨v, -, rfl⟩ := List.mem_map.mp hpiece
      exact length_lanes v
  refine ⟨joined, hjoined, ?_⟩
  rw [hchunk, List.map_injective_iff.mpr (fun p q => eq_of_lanes) hlist]

/-! ## Round trips -/

/-- `compress` and `expand` with this mask undo each other on the selected lanes. -/
def UndoSelected {β : Type} (compress : Vec β n → β → Option (Vec β n))
    (expand : Vec β n → Vec β n → Option (Vec β n)) (mask : Vec Bool n) : Prop :=
  ∀ value original fill,
    (∃ packed, compress value fill = some packed ∧ IsPacked value mask fill packed ∧
      expand packed original = some fun i => if mask i then value i else original i) ∧
    ∃ unpacked packed, expand value original = some unpacked ∧ compress unpacked fill = some packed ∧
      ∀ k : Fin n, k < reduceCount mask → packed k = value k

theorem compressLanes_expandLanes {β : Type} (initial : β → Vec β n) (mask : Vec Bool n) :
    UndoSelected (fun value fill => compressLanes (initial fill) value mask fill)
      (fun value original => expandLanes value mask original) mask := by
  intro value original fill
  obtain ⟨packed, hpacked, hIs⟩ := compressLanes_spec (initial fill) value mask fill
  obtain ⟨back, hback, hIsBack⟩ := expandLanes_spec packed mask original
  obtain ⟨unpacked, hunpacked, hIsUnpacked⟩ := expandLanes_spec value mask original
  obtain ⟨again, hagain, hIsAgain⟩ := compressLanes_spec (initial fill) unpacked mask fill
  refine ⟨⟨packed, hpacked, hIs, ?_⟩, unpacked, again, hunpacked, hagain, fun k hk => ?_⟩
  · show expandLanes packed mask original = _
    rw [hback, hIsBack.of_packed hIs]
  · exact hIsAgain.of_unpacked hIsUnpacked k hk

/-- `expand` undoes `compress` on the selected lanes and the other way round, for vectors and masks,
and `cat` undoes `chunk` and the other way round. -/
theorem lane_rearrangements (mask : Vec Bool n) :
    UndoSelected (fun value fill => compress value mask fill)
      (fun (value original : Vec α n) => expand value mask original) mask ∧
    UndoSelected (fun value fill => compressMask value mask fill)
      (fun value original => expandMask value mask original) mask ∧
    (∀ value : Vec α n, compressDefault value mask = compress value mask default ∧
      expandDefault value mask = expand value mask default) ∧
    ∀ size, 0 < size →
      (∀ value : Vec α n, 0 < n → ∃ first rest,
        chunk size value = some (first :: rest) ∧ cat first rest = some ⟨n, value⟩) ∧
      ∀ (first : Vec α size) (rest : List (Vec α size)), ∃ joined,
        cat ⟨size, first⟩ (rest.map (Sigma.mk size)) = some joined ∧
          chunk size joined.2 = some ((first :: rest).map (Sigma.mk size)) :=
  ⟨compressLanes_expandLanes (fun _ => default) mask, compressLanes_expandLanes (fun fill _ => fill) mask,
    fun _ => ⟨rfl, rfl⟩, fun size hsize =>
      ⟨fun value hn => cat_chunk hn size value, fun first rest => chunk_cat hsize first rest⟩⟩

end CCForge.BasicVec
