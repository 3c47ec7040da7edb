import Mathlib.Data.Finset.Card
import Mathlib.Algebra.GroupWithZero.Nat
import Mathlib.Order.Interval.Finset.Nat
import CCForge.Buffers.Model
import CCForge.Lib.Cells

/-!
# buffer_copy copies the concatenation

Each round moves a run of bytes from the front of the sources that are left to the front of the
destinations that are left. All rounds together write the bytes of the sources to the addresses of
the destinations in order.
-/

namespace CCForge.Buffers

open CCForge.Cells

variable {w : ℕ} {Byte : Type} {m m' : Memory Byte} {b current : Buffer w} {c dests sources : Cursor w}
  {haveCurrent : Bool} {rest buffers : List (Buffer w)} {n total a : ℕ}

/-! ## Addresses -/

@[simp] theorem Buffer.length_addresses (b : Buffer w) : b.addresses.length = b.size :=
  List.length_range'

theorem length_addresses (buffers : List (Buffer w)) :
    (addresses buffers).length = (buffers.map Buffer.size).sum := by
  induction buffers with
  | nil => rfl
  | cons b buffers ih =>
    rw [addresses, List.flatMap_cons, List.length_append, Buffer.length_addresses, List.map_cons,
      List.sum_cons, ← ih, addresses]

theorem Buffer.addresses_advance (b : Buffer w) (n : ℕ) : (b.advance n).addresses = b.addresses.drop n := by
  unfold Buffer.addresses Buffer.advance
  rw [List.drop_range', Nat.mul_one]

theorem Buffer.take_addresses (h : n ≤ b.size) : b.addresses.take n = List.range' b.data n := by
  unfold Buffer.addresses
  exact List.take_range'_of_length_ge h

/-- A byte lies in the address space. -/
theorem Buffer.mem_addresses (h : a ∈ b.addresses) : 0 < a ∧ a < 2 ^ w := by
  rw [Buffer.addresses, List.mem_range'_1] at h
  have hspace := b.inSpace (by omega)
  omega

/-- Different addresses are fewer than the space has. -/
theorem length_lt_of_nodup (h : (addresses buffers).Nodup) : (addresses buffers).length < 2 ^ w := by
  have hsub : (addresses buffers).toFinset ⊆ Finset.Ico 1 (2 ^ w) := by
    intro a ha
    rw [List.mem_toFinset, addresses, List.mem_flatMap] at ha
    obtain ⟨b, -, hb⟩ := ha
    exact Finset.mem_Ico.mpr (Buffer.mem_addresses hb)
  have hcard := Finset.card_le_card hsub
  have hpos : 0 < 2 ^ w := Nat.two_pow_pos w
  rw [List.toFinset_card_of_nodup h, Nat.card_Ico] at hcard
  omega

/-- The addresses that a cursor has not passed. -/
def Cursor.addresses (c : Cursor w) : List ℕ :=
  (if c.haveCurrent then c.current.addresses else []) ++ Buffers.addresses c.rest

/-! ## The inner loops -/

theorem current_addresses (h : ¬haveCurrent ∨ current.empty) :
    (if haveCurrent then current.addresses else []) = [] := by
  split
  · next hhave =>
    have hsize : current.size = 0 := by
      obtain h | h := h
      · exact absurd hhave h
      · exact beq_iff_eq.mp h
    rw [Buffer.addresses, hsize, List.range'_zero]
  · rfl

/-- An inner loop that returns has no address left. -/
theorem refill_none (h : refill current haveCurrent rest = none) :
    (Cursor.mk current haveCurrent rest).addresses = [] := by
  induction rest generalizing current haveCurrent with
  | nil =>
    unfold refill at h
    split at h
    · next hempty =>
      rw [Cursor.addresses, current_addresses hempty]
      rfl
    · cases h
  | cons b rest ih =>
    unfold refill at h
    split at h
    · next hempty =>
      rw [Cursor.addresses, current_addresses hempty]
      exact ih h
    · cases h

/-- An inner loop drops empty buffers only, and stops at one with bytes. -/
theorem refill_some (h : refill current haveCurrent rest = some c) :
    c.addresses = (Cursor.mk current haveCurrent rest).addresses ∧ c.haveCurrent = true ∧
      c.current.size ≠ 0 := by
  induction rest generalizing current haveCurrent with
  | nil =>
    unfold refill at h
    split at h
    · cases h
    · next hfull =>
      rw [not_or, not_not] at hfull
      cases h
      exact ⟨rfl, hfull.1, fun hzero => hfull.2 (beq_iff_eq.mpr hzero)⟩
  | cons b rest ih =>
    unfold refill at h
    split at h
    · next hempty =>
      obtain ⟨haddresses, hrest⟩ := ih h
      refine ⟨?_, hrest⟩
      rw [haddresses, Cursor.addresses, Cursor.addresses, current_addresses hempty]
      rfl
    · next hfull =>
      rw [not_or, not_not] at hfull
      cases h
      exact ⟨rfl, hfull.1, fun hzero => hfull.2 (beq_iff_eq.mpr hzero)⟩

/-! ## One round -/

/-- `memmove` writes the bytes that the source had. -/
theorem memmove_eq (m : Memory Byte) (dest source count : ℕ) :
    memmove m dest source count =
      writeAll m ((List.range' dest count).zip ((List.range' source count).map m)) := by
  funext a
  unfold memmove
  split
  · next ha =>
    -- all bytes are read before the first is written, so overlapping runs do no harm
    have hmap : (List.range' dest count).map (writeAll m _) =
        ((List.range' source count).map m).take _ ++ _ := map_writeAll List.nodup_range'
    have hget := congrArg (·[a - dest]?) hmap
    have hlt : a - dest < count := by omega
    have hcell : dest + (a - dest) = a := by omega
    simp [hlt, hcell] at hget
    exact hget.symm
  · next ha =>
    refine (writeAll_of_notMem fun hmem => ha ?_).symm
    rw [List.mem_range'_1] at hmem
    exact hmem

/-- The front of the addresses is in the current buffer. -/
theorem Cursor.split (hhave : c.haveCurrent = true) (h : n ≤ c.current.size) :
    c.addresses = List.range' c.current.data n ++
      ({ c with current := c.current.advance n } : Cursor w).addresses := by
  unfold Cursor.addresses
  rw [hhave, if_pos rfl, if_pos rfl, ← List.append_assoc, Buffer.addresses_advance,
    ← Buffer.take_addresses h, List.take_append_drop]

theorem copyOne_eq (m : Memory Byte) (dest source : Buffer w) :
    copyOne m dest source = (min dest.size source.size,
      writeAll m ((List.range' dest.data (min dest.size source.size)).zip
        ((List.range' source.data (min dest.size source.size)).map m))) := by
  unfold copyOne
  dsimp only
  rw [← memmove_eq]
  split
  · rfl
  · next hzero =>
    have hcount : min dest.size source.size = 0 := not_not.mp hzero
    have hsame : memmove m dest.data source.data 0 = m := by
      funext a
      exact if_neg (by omega)
    rw [hcount, hsame]

/-! ## All rounds -/

/-- With enough rounds the loop writes the bytes of the sources to the destinations. -/
theorem copyLoop_eq {fuel : ℕ} (dests sources : Cursor w) (total : ℕ) (m : Memory Byte)
    (hdisjoint : sources.addresses.Disjoint dests.addresses)
    (hfuel : min dests.addresses.length sources.addresses.length < fuel)
    (htotal : total + min dests.addresses.length sources.addresses.length < 2 ^ w) :
    copyLoop fuel dests sources total m =
      some (total + min dests.addresses.length sources.addresses.length,
        writeAll m (dests.addresses.zip (sources.addresses.map m))) := by
  induction fuel generalizing dests sources total m with
  | zero => omega
  | succ fuel ih =>
    unfold copyLoop
    cases hd : dests.refill with
    | none =>
      have hnil : dests.addresses = [] := refill_none hd
      simp [hnil]
    | some dests' =>
      obtain ⟨hdests, hdhave, hdsize⟩ := refill_some hd
      cases hs : sources.refill with
      | none =>
        have hnil : sources.addresses = [] := refill_none hs
        simp [hnil]
      | some sources' =>
        obtain ⟨hsources, hshave, hssize⟩ := refill_some hs
        -- both cursors lose their first `n` addresses, and neither cursor is at its end
        let n := min dests'.current.size sources'.current.size
        have hdests' : dests.addresses = List.range' dests'.current.data n ++ _ :=
          hdests.symm.trans (Cursor.split hdhave (Nat.min_le_left _ _))
        have hsources' : sources.addresses = List.range' sources'.current.data n ++ _ :=
          hsources.symm.trans (Cursor.split hshave (Nat.min_le_right _ _))
        have hn : 0 < n := by omega
        rw [hdests', hsources'] at hdisjoint hfuel htotal ⊢
        rw [List.length_append, List.length_append, List.length_range', List.length_range',
          Nat.add_min_add_left] at hfuel htotal ⊢
        rw [List.disjoint_append_left, List.disjoint_append_right, List.disjoint_append_right] at hdisjoint
        dsimp only
        rw [copyOne_eq]
        dsimp only
        -- the later rounds read none of the addresses that this round writes
        rw [Nat.mod_eq_of_lt (by omega : total + n < 2 ^ w), ih _ _ _ _ hdisjoint.2.2 (by omega) (by omega),
          writeAll_zip_append (by simp) hdisjoint.2.1, Nat.add_assoc]

/-- The copy of the concatenation. -/
theorem bufferCopy_eq {dests sources : List (Buffer w)} {fuel : ℕ} (m : Memory Byte)
    (hdests : (addresses dests).Nodup) (hdisjoint : (addresses sources).Disjoint (addresses dests))
    (hfuel : min (addresses dests).length (addresses sources).length < fuel) :
    bufferCopy fuel m dests sources =
      some (min (addresses dests).length (addresses sources).length,
        writeAll m ((addresses dests).zip (contents m sources))) := by
  have hlt := length_lt_of_nodup hdests
  have hloop := copyLoop_eq ⟨.null, false, dests⟩ ⟨.null, false, sources⟩ 0 m hdisjoint hfuel (by
    rw [Nat.zero_add]
    exact (Nat.min_le_left _ _).trans_lt hlt)
  rw [Nat.zero_add] at hloop
  exact hloop

/-- `buffer_copy` is a copy of the concatenations, however the sources are split. -/
theorem buffer_copy_concatenates (m : Memory Byte) (dests sources : List (Buffer w))
    (hdests : (addresses dests).Nodup)
    (hdisjoint : ∀ a ∈ addresses sources, a ∉ addresses dests) :
    ∃ m', (∀ fuel, min (dests.map Buffer.size).sum (sources.map Buffer.size).sum < fuel →
        bufferCopy fuel m dests sources =
          some (min (dests.map Buffer.size).sum (sources.map Buffer.size).sum, m')) ∧
      contents m' dests =
        (contents m sources).take (min (dests.map Buffer.size).sum (sources.map Buffer.size).sum) ++
          (contents m dests).drop (min (dests.map Buffer.size).sum (sources.map Buffer.size).sum) ∧
      (∀ a, a ∉ addresses dests → m' a = m a) ∧
      ∀ sources', contents m sources' = contents m sources →
        (∀ a ∈ addresses sources', a ∉ addresses dests) →
        ∀ fuel, min (dests.map Buffer.size).sum (sources.map Buffer.size).sum < fuel →
          bufferCopy fuel m dests sources' = bufferCopy fuel m dests sources := by
  rw [← length_addresses, ← length_addresses]
  refine ⟨writeAll m ((addresses dests).zip (contents m sources)), ?_, ?_, ?_, ?_⟩
  · exact fun fuel hfuel => bufferCopy_eq m hdests (fun a ha => hdisjoint a ha) hfuel
  · have hlen : (contents m sources).length = (addresses sources).length := List.length_map m
    have hlen' : (contents m dests).length = (addresses dests).length := List.length_map m
    have hmap : contents (writeAll m ((addresses dests).zip (contents m sources))) dests = _ :=
      map_writeAll hdests
    rw [hmap, hlen]
    change _ ++ (contents m dests).drop _ = _
    obtain hle | hle := Nat.le_total (addresses dests).length (addresses sources).length
    · rw [Nat.min_eq_left hle, List.drop_eq_nil_of_le (by omega), List.drop_eq_nil_of_le (by omega)]
    · rw [Nat.min_eq_right hle, List.take_of_length_le (by omega), List.take_of_length_le (by omega)]
  · exact fun a ha => writeAll_of_notMem ha
  · intro sources' hcontents hdisjoint' fuel hfuel
    have hlen : (addresses sources').length = (addresses sources).length := by
      have hmap := congrArg List.length hcontents
      rwa [contents, contents, List.length_map, List.length_map] at hmap
    rw [bufferCopy_eq m hdests (fun a ha => hdisjoint a ha) hfuel,
      bufferCopy_eq m hdests (fun a ha => hdisjoint' a ha) (by rwa [hlen]), hlen, hcontents]

/-- Two bytes into three destinations, one of them empty. -/
theorem buffer_copy_concatenates_three :
    let dests : List (Buffer 64) :=
      [⟨20, 1, by decide⟩, ⟨30, 0, by decide⟩, ⟨40, 2, by decide⟩]
    ∃ m' : Memory ℕ, contents m' dests = [10, 11, 41] ∧
      ∀ fuel, 2 < fuel → bufferCopy fuel id dests [⟨10, 2, by decide⟩] = some (2, m') := by
  obtain ⟨m', hcopy, hcontents, -⟩ := buffer_copy_concatenates (w := 64) (m := (id : Memory ℕ))
    [⟨20, 1, by decide⟩, ⟨30, 0, by decide⟩, ⟨40, 2, by decide⟩] [⟨10, 2, by decide⟩] (by decide)
    (by decide)
  exact ⟨m', hcontents, hcopy⟩

/-- Where one address is in two destinations, the second write is what both hold. -/
theorem buffer_copy_overlapping_dests :
    let dests : List (Buffer 64) := [⟨20, 1, by decide⟩, ⟨20, 1, by decide⟩]
    let sources : List (Buffer 64) := [⟨10, 2, by decide⟩]
    (∀ a ∈ addresses sources, a ∉ addresses dests) ∧
      (bufferCopy 3 (id : Memory ℕ) dests sources).map (fun r => (r.1, contents r.2 dests)) =
        some (2, [11, 11]) ∧
      (contents (id : Memory ℕ) sources).take 2 ++ (contents (id : Memory ℕ) dests).drop 2 = [10, 11] := by
  decide

end CCForge.Buffers
