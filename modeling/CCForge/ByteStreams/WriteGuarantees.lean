import Mathlib.Tactic.Common
import CCForge.ByteStreams.WriteStream

/-!
# A write appends a prefix

What a call takes from the input are the bytes that the input had before the call, also where the input
is a part of the vector that the call moves to another block.
-/

namespace CCForge.ByteStreams

open CCForge.Buffers (Memory memmove)
open CCForge.IoCombinators (ErrorCode IoResult IoStatus)

variable {maxSize n count a : ℕ} {allocator : Allocator} {live : List Range} {m m' : Memory Byte}
  {v v' staged : Vector} {r dest source input used : Range} {s t : WriteState}

/-! ## What changes where -/

theorem bufferCopy_apply (ha : ¬dest.Mem a) : bufferCopy m dest source a = m a := by
  unfold bufferCopy
  split
  · refine if_neg fun hin => ha ⟨hin.1, ?_⟩
    have hle := Nat.min_le_left dest.size source.size
    omega
  · rfl

/-- It is what is done with buffers that are known to be in the address space. -/
theorem bufferCopy_eq_copyOne (dest source : Buffers.Buffer 64) :
    bufferCopy m ⟨dest.data, dest.size⟩ ⟨source.data, source.size⟩ = (Buffers.copyOne m dest source).2 := rfl

/-- The destination has the bytes that the source had. -/
theorem read_bufferCopy (h : dest.size ≤ source.size) :
    Range.read (bufferCopy m dest source) dest = Range.read m ⟨source.data, dest.size⟩ := by
  refine Range.read_shift fun i hi => ?_
  unfold bufferCopy
  rw [Nat.min_eq_left h, if_pos (by omega), memmove, if_pos (by omega), Nat.add_sub_cancel_left]

theorem fill_apply (ha : ¬(⟨n, count⟩ : Range).Mem a) : fill m n count a = m a := if_neg ha

theorem Allocator.deallocate_apply (ha : ¬r.Mem a) : allocator.deallocate m r a = m a := if_neg ha

/-- An allocation failed. -/
def Allocator.Fails (allocator : Allocator) : Prop := ∃ live n, allocator.allocate live n = none

/-- Bytes are appended to a range, and a block apart from it is given back. -/
theorem read_appended {d : ℕ} (hused : count ≤ used.size) (happart : r.Disjoint ⟨d, n + count⟩) :
    Range.read (allocator.deallocate (bufferCopy m ⟨d + n, count⟩ used) r) ⟨d, n + count⟩ =
      Range.read m ⟨d, n⟩ ++ Range.read m ⟨used.data, count⟩ := by
  rw [Range.read_congr fun a ha => Allocator.deallocate_apply fun hin => happart a hin ha,
    Range.read_append, read_bufferCopy hused,
    Range.read_congr fun a ha => bufferCopy_apply fun hin => Nat.not_lt.mpr hin.1 ha.2]

/-- A range that is in use keeps its bytes and shares none with a block. -/
structure Kept (m m' : Memory Byte) (block r : Range) : Prop where
  same : ∀ a, r.Mem a → m' a = m a
  disjoint : r.Disjoint block

/-! ## std::vector -/

namespace Vector

theorem bytes_inside (hfits : v.size ≤ v.allocated) : v.bytes.Inside v.block :=
  ⟨Nat.le_refl _, Nat.add_le_add_left hfits _⟩

theorem makeRoom_eq (hfits : v.size ≤ v.allocated)
    (h : v.makeRoom maxSize allocator live n m = some (m', v')) :
    v'.size = v.size ∧ n ≤ v'.allocated ∧ Range.read m' v'.bytes = Range.read m v.bytes ∧
      ∀ r ∈ live, r.Disjoint v.block → Kept m m' v'.block r := by
  unfold makeRoom at h
  split at h
  · next hroom =>
    cases h
    exact ⟨rfl, hroom, rfl, fun r hr hdisjoint => ⟨fun a ha => rfl, hdisjoint⟩⟩
  · split at h
    · cases h
    · obtain ⟨block, hblock, hmove⟩ := Option.map_eq_some_iff.mp h
      cases hmove
      have hsize := allocator.size_le _ _ _ hblock
      have hlive := allocator.disjoint _ _ _ hblock
      have hold := hlive v.block List.mem_cons_self
      refine ⟨rfl, hsize, ?_, fun r hr hdisjoint => ⟨fun a ha => ?_, ?_⟩⟩
      · -- the new block is apart from the old one, which is given back after the bytes left it
        refine Range.read_shift fun i hi => ?_
        have hi : i < v.size := hi
        have hnew : block.Mem (block.data + i) := ⟨Nat.le_add_right _ _, by omega⟩
        rw [Allocator.deallocate_apply fun hin => hold _ hin hnew, memmove, if_pos (by omega),
          Nat.add_sub_cancel_left]
      · have hblock := hlive r (List.mem_cons_of_mem _ hr) a ha
        rw [Allocator.deallocate_apply (hdisjoint a ha), memmove, if_neg fun hin => hblock ⟨hin.1, ?_⟩]
        omega
      · exact hlive r (List.mem_cons_of_mem _ hr)

theorem makeRoom_none (hn : n ≤ maxSize) (h : v.makeRoom maxSize allocator live n m = none) :
    allocator.Fails := by
  unfold makeRoom at h
  split at h
  · cases h
  · rw [if_neg (by omega)] at h
    exact ⟨_, _, Option.map_eq_none_iff.mp h⟩

/-- A vector that grows keeps its bytes in front. -/
theorem resize_eq (hfits : v.size ≤ v.allocated) (hn : v.size ≤ n)
    (h : v.resize maxSize allocator live n m = some (m', v')) :
    v'.size = n ∧ v'.size ≤ v'.allocated ∧ Range.read m' ⟨v'.data, v.size⟩ = Range.read m v.bytes ∧
      ∀ r ∈ live, r.Disjoint v.block → Kept m m' v'.block r := by
  unfold resize at h
  split at h
  · next hle =>
    have heq : v.size = n := by omega
    cases h
    exact ⟨rfl, heq ▸ hfits, rfl, fun r hr hdisjoint => ⟨fun a ha => rfl, hdisjoint⟩⟩
  · obtain ⟨⟨m₁, v₁⟩, hroom, hfill⟩ := Option.map_eq_some_iff.mp h
    cases hfill
    obtain ⟨hsize, hallocated, hread, hkept⟩ := makeRoom_eq hfits hroom
    refine ⟨rfl, hallocated, ?_, fun r hr hdisjoint => ?_⟩
    · rw [← hread, bytes, hsize]
      exact Range.read_congr fun a ha => fill_apply fun hin => Nat.lt_irrefl _ (ha.2.trans_le hin.1)
    · obtain ⟨hsame, hblock⟩ := hkept r hr hdisjoint
      refine ⟨fun a ha => ?_, hblock⟩
      rw [fill_apply, hsame a ha]
      -- what is filled is in the block
      refine fun hin => hblock a ha ⟨Nat.le_of_add_right_le hin.1, ?_⟩
      have hlt := hin.2
      unfold block
      dsimp only at hlt ⊢
      omega

theorem resize_none (hn : n ≤ maxSize) (h : v.resize maxSize allocator live n m = none) :
    allocator.Fails := by
  unfold resize at h
  split at h
  · cases h
  · exact makeRoom_none hn (Option.map_eq_none_iff.mp h)

end Vector

/-! ## staged_input -/

theorem copyToVector_eq (h : copyToVector maxSize allocator live input m = some (m', v')) :
    v'.size = input.size ∧ v'.size ≤ v'.allocated ∧ Range.read m' v'.bytes = Range.read m input ∧
      ∀ r ∈ live, Kept m m' v'.block r := by
  obtain ⟨⟨m₁, v₁⟩, hresize, hcopy⟩ := Option.map_eq_some_iff.mp h
  cases hcopy
  obtain ⟨hsize, hfits, -, hkept⟩ := Vector.resize_eq (Nat.le_refl 0) (Nat.zero_le _) hresize
  have hempty : ∀ r : Range, r.Disjoint ({} : Vector).block := fun r a _ hin => by
    exact absurd hin.2 (Nat.not_lt.mpr hin.1)
  have hinput := hkept input List.mem_cons_self (hempty input)
  refine ⟨hsize, hfits, ?_, fun r hr => ?_⟩
  · rw [read_bufferCopy (Nat.le_of_eq hsize)]
    exact (congrArg (fun n => Range.read m₁ ⟨input.data, n⟩) hsize).trans (Range.read_congr hinput.same)
  · obtain ⟨hsame, hblock⟩ := hkept r (List.mem_cons_of_mem _ hr) (hempty r)
    refine ⟨fun a ha => ?_, hblock⟩
    rw [bufferCopy_apply fun hin => hblock a ha ((Vector.bytes_inside hfits).mem hin), hsame a ha]

theorem copyToVector_none (hn : input.size ≤ maxSize)
    (h : copyToVector maxSize allocator live input m = none) :
    allocator.Fails :=
  Vector.resize_none hn (Option.map_eq_none_iff.mp h)

theorem bufferPrefix_eq (h : count ≤ input.size) : bufferPrefix count input = ⟨input.data, count⟩ := by
  rw [bufferPrefix, Nat.min_eq_left h]

/-- The input that is copied from has the bytes of the input that was given, and none in the block that
the vector may leave. -/
theorem stage_eq (hpos : 0 < count) (hcount : count ≤ input.size)
    (hread : Range.Inside ⟨input.data, count⟩ v.bytes ∨ Range.Disjoint ⟨input.data, count⟩ v.block)
    (h : stage maxSize allocator v count input m = some (m', staged, used)) :
    count ≤ used.size ∧ Range.read m' ⟨used.data, count⟩ = Range.read m ⟨input.data, count⟩ ∧
      Range.Disjoint ⟨used.data, count⟩ v.block ∧ Kept m m' staged.block v.block := by
  unfold stage at h
  split at h
  · obtain ⟨⟨m₁, staged₁⟩, hcopy, hresult⟩ := Option.map_eq_some_iff.mp h
    cases hresult
    obtain ⟨hsize, hstaged, hbytes, hkept⟩ := copyToVector_eq hcopy
    rw [bufferPrefix_eq hcount] at hsize hbytes
    have hblock := hkept v.block List.mem_cons_self
    have hused : (⟨staged.bytes.data, count⟩ : Range) = staged.bytes :=
      congrArg (Range.mk staged.data) hsize.symm
    refine ⟨Nat.le_of_eq hsize.symm, ?_, ?_, hblock⟩
    · rw [hused, hbytes]
    · rw [hused]
      exact fun a ha hin => hblock.disjoint a hin ((Vector.bytes_inside hstaged).mem ha)
  · next hout =>
    cases h
    refine ⟨hcount, rfl, ?_, fun a _ => rfl, fun a _ hin => absurd hin.2 (Nat.not_lt.mpr hin.1)⟩
    rcases hread with hin | hdisjoint
    · have hlow := hin.1
      have hhigh := hin.2
      unfold Vector.bytes at hlow hhigh
      dsimp only at hlow hhigh
      exact absurd ⟨by omega, hlow, by omega⟩ hout
    · exact hdisjoint

theorem stage_none (hcount : count ≤ input.size) (hn : count ≤ maxSize)
    (h : stage maxSize allocator v count input m = none) : allocator.Fails := by
  unfold stage at h
  split at h
  · refine copyToVector_none ?_ (Option.map_eq_none_iff.mp h)
    rwa [bufferPrefix_eq hcount]
  · cases h

/-! ## write_some -/

structure Sound (maxSize : ℕ) (s : MemoryWriteStream) : Prop where
  fits : s.storage.size ≤ s.storage.allocated
  representable : s.storage.size ≤ maxSize
  bounded : s.capacity ≠ dynamicExtentLimit → s.size ≤ s.capacity
  lent : s.borrowed = true → s.capacity ≠ dynamicExtentLimit

/-- The vector of the stream would exceed `max_size`. -/
def TooLarge (maxSize : ℕ) (s : WriteState) (input : Range) : Prop :=
  s.stream.borrowed = false ∧ maxSize < s.stream.size + s.stream.accepted input

/-- What a call of `write_some` can do. -/
inductive Wrote (maxSize : ℕ) (allocator : Allocator) (s : WriteState) (input : Range) :
    WriteOutcome × WriteState → Prop
  | threw (memory : Memory Byte) (hfails : allocator.Fails)
      (hcontents : ({ s with memory } : WriteState).contents = s.contents) :
      Wrote maxSize allocator s input (.threw, { s with memory })
  | tooLarge (hlarge : TooLarge maxSize s input) :
      Wrote maxSize allocator s input (.returned (.failure valueTooLarge 0), s)
  | appended (t : WriteState) (hlarge : ¬TooLarge maxSize s input) (hsound : Sound maxSize t.stream)
      (hcapacity : t.stream.capacity = s.stream.capacity)
      (hsize : t.stream.size = s.stream.size + s.stream.accepted input)
      (hcontents : t.contents =
        s.contents ++ (Range.read s.memory input).take (s.stream.accepted input)) :
      Wrote maxSize allocator s input (.returned (.success (s.stream.accepted input)), t)

theorem size_owned {s : MemoryWriteStream} (h : s.borrowed = false) : s.size = s.storage.size := by
  simp [MemoryWriteStream.size, h]

theorem size_borrowed {s : MemoryWriteStream} (h : s.borrowed = true) : s.size = s.position := by
  simp [MemoryWriteStream.size, h]

theorem bytes_owned {s : MemoryWriteStream} (h : s.borrowed = false) : s.bytes = s.storage.bytes := by
  simp [MemoryWriteStream.bytes, h]

theorem not_tooLarge_of_zero (hsound : Sound maxSize s.stream) (h : s.stream.accepted input = 0) :
    ¬TooLarge maxSize s input := by
  rintro ⟨hborrowed, hlarge⟩
  have hrepresentable := hsound.representable
  rw [size_owned hborrowed] at hlarge
  omega

theorem contents_owned (h : s.stream.borrowed = false) :
    s.contents = Range.read s.memory s.stream.storage.bytes := by
  rw [WriteState.contents, bytes_owned h]

theorem contents_borrowed (h : s.stream.borrowed = true) :
    s.contents = Range.read s.memory ⟨s.stream.output.data, s.stream.position⟩ := by
  rw [WriteState.contents, MemoryWriteStream.bytes, if_pos h]

theorem accepted_le (s : MemoryWriteStream) (input : Range) : s.accepted input ≤ input.size :=
  Nat.min_le_left _ _

/-- `count` of `write_some`. -/
theorem accepted_eq (s : MemoryWriteStream) (h : input.size < 2 ^ 64) :
    s.accepted input =
      if s.capacity = dynamicExtentLimit then input.size else min input.size s.remainingCapacity := by
  unfold MemoryWriteStream.accepted
  split
  · next hlimit =>
    rw [MemoryWriteStream.remainingCapacity, if_pos hlimit]
    exact Nat.min_eq_left (by unfold dynamicExtentLimit; omega)
  · rfl

/-- Within a bounded capacity there is room for what is accepted. -/
theorem size_accepted_le {s : MemoryWriteStream} (hsound : Sound maxSize s)
    (h : s.capacity ≠ dynamicExtentLimit) : s.size + s.accepted input ≤ s.capacity := by
  have hbounded := hsound.bounded h
  unfold MemoryWriteStream.accepted MemoryWriteStream.remainingCapacity
  rw [if_neg h]
  split
  · omega
  · omega

theorem appendOwned_wrote (hsound : Sound maxSize s.stream) (hborrowed : s.stream.borrowed = false)
    (hpos : 0 < s.stream.accepted input)
    (hlarge : s.stream.storage.size + s.stream.accepted input ≤ maxSize)
    (hread : Range.Inside ⟨input.data, s.stream.accepted input⟩ s.stream.storage.bytes ∨
      Range.Disjoint ⟨input.data, s.stream.accepted input⟩ s.stream.storage.block) :
    Wrote maxSize allocator s input
      (appendOwned maxSize allocator s (s.stream.accepted input) input) := by
  have hcount := accepted_le s.stream input
  have hstored := size_owned hborrowed
  unfold appendOwned
  dsimp only
  split
  · next hstage => exact .threw s.memory (stage_none hcount (by omega) hstage) rfl
  · next m₁ staged used hstage =>
    obtain ⟨hused, hbytes, hleave, hstaged⟩ := stage_eq hpos hcount hread hstage
    rw [bufferPrefix_eq hused]
    -- the bytes before the call, when the input is staged
    have hold : ∀ a, s.stream.storage.bytes.Mem a → m₁ a = s.memory a := fun a ha =>
      hstaged.same a ((Vector.bytes_inside hsound.fits).mem ha)
    split
    · next hresize =>
      refine .threw _ (Vector.resize_none hlarge hresize) ?_
      rw [contents_owned (s := s) hborrowed]
      refine Eq.trans (contents_owned hborrowed) (Range.read_congr fun a ha => ?_)
      have hblock := (Vector.bytes_inside hsound.fits).mem ha
      exact (Allocator.deallocate_apply (hstaged.disjoint a hblock)).trans (hold a ha)
    · next m₂ storage hresize =>
      obtain ⟨hsize, hfits, hfront, hkept⟩ :=
        Vector.resize_eq hsound.fits (Nat.le_add_right _ _) hresize
      obtain ⟨-, happart⟩ := hkept staged.block (by simp) hstaged.disjoint.symm
      obtain ⟨hsame, -⟩ := hkept _ (by simp) hleave
      have hafter : ({ s.stream with storage } : MemoryWriteStream).size =
          s.stream.size + s.stream.accepted input := by
        rw [size_owned, hstored, ← hsize]
        exact hborrowed
      refine .appended _ ?_ ?_ rfl hafter ?_
      · exact fun h => absurd h.2 (by omega)
      · exact ⟨hfits, hsize.trans_le hlarge, fun hlimit => hafter.trans_le (size_accepted_le hsound hlimit),
          hsound.lent⟩
      -- `m₁` is the memory once the input is staged, and `m₂` once the vector has grown
      have hstorage : storage.bytes =
          ⟨storage.data, s.stream.storage.size + s.stream.accepted input⟩ :=
        congrArg (Range.mk storage.data) hsize
      rw [contents_owned (s := s) hborrowed, Range.take_read _ hcount]
      refine Eq.trans (contents_owned hborrowed) ?_
      calc Range.read _ storage.bytes
        _ = Range.read m₂ ⟨storage.data, s.stream.storage.size⟩ ++
              Range.read m₂ ⟨used.data, s.stream.accepted input⟩ := by
          rw [hstorage]
          refine read_appended (Nat.le_refl _) ?_
          rw [← hstorage]
          exact fun a ha hin => happart a ha ((Vector.bytes_inside hfits).mem hin)
        _ = Range.read m₁ s.stream.storage.bytes ++ Range.read m₁ ⟨used.data, s.stream.accepted input⟩ := by
          rw [hfront, Range.read_congr hsame]
        _ = _ := by rw [Range.read_congr hold, hbytes]

theorem writeSome_wrote (hsound : Sound maxSize s.stream) (hread : s.stream.Readable maxSize input) :
    Wrote maxSize allocator s input (writeSome maxSize allocator s input) := by
  obtain ⟨hsize, hread⟩ := hread
  have hcount := accepted_le s.stream input
  have hnothing : s.stream.accepted input = 0 →
      Wrote maxSize allocator s input (.returned (.success 0), s) := by
    intro hzero
    have happended : Wrote maxSize allocator s input
        (.returned (.success (s.stream.accepted input)), s) :=
      .appended s (not_tooLarge_of_zero hsound hzero) hsound rfl (by omega) (by simp [hzero])
    rwa [hzero] at happended
  unfold writeSome
  dsimp only
  rw [← accepted_eq s.stream hsize]
  split
  · next hempty => exact hnothing (by omega)
  split
  · next hzero => exact hnothing hzero
  split
  · next hborrowed =>
    have hafter : ({ s.stream with position := s.stream.position + s.stream.accepted input } :
        MemoryWriteStream).size = s.stream.size + s.stream.accepted input := by
      rw [size_borrowed, size_borrowed hborrowed]
      exact hborrowed
    refine .appended _ (fun h => ?_) ?_ rfl hafter ?_
    · exact absurd (hborrowed.symm.trans h.1) (by decide)
    · exact ⟨hsound.fits, hsound.representable,
        fun hlimit => hafter.trans_le (size_accepted_le hsound hlimit), hsound.lent⟩
    · rw [contents_borrowed hborrowed, Range.take_read _ hcount, bufferPrefix_eq hcount]
      refine Eq.trans (contents_borrowed hborrowed) ?_
      -- the source is read before the output is written, and what is in the output stays
      refine (Range.read_append _ _ _ _).trans (congrArg₂ _ (Range.read_congr fun a ha => ?_) ?_)
      · exact bufferCopy_apply fun hin => Nat.not_lt.mpr hin.1 ha.2
      · exact read_bufferCopy (Nat.le_refl _)
  · next hborrowed =>
    have hborrowed : s.stream.borrowed = false := Bool.eq_false_iff.mpr hborrowed
    have hrepresentable := hsound.representable
    have hstored := size_owned hborrowed
    split
    · exact .tooLarge ⟨hborrowed, by omega⟩
    · refine appendOwned_wrote hsound hborrowed (by omega) (by omega) ?_
      rw [← bytes_owned hborrowed]
      exact hread hborrowed (by omega)

/-! ## Both calls -/

/-- A call appends what it accepts and has the given result, or leaves the contents as they are. -/
def Appends (maxSize : ℕ) (fails : Prop) (s : WriteState) (input : Range) (result : IoResult ℕ) :
    WriteOutcome × WriteState → Prop
  | (.threw, t) => fails ∧ t.contents = s.contents
  | (.returned returned, t) =>
    (TooLarge maxSize s input → returned = .failure valueTooLarge 0 ∧ t.contents = s.contents) ∧
    (¬TooLarge maxSize s input → returned = result ∧
      t.contents = s.contents ++ (Range.read s.memory input).take (s.stream.accepted input))

theorem Wrote.appends {w : WriteOutcome × WriteState} (h : Wrote maxSize allocator s input w) :
    Appends maxSize allocator.Fails s input (.success (s.stream.accepted input)) w := by
  cases h with
  | threw memory hfails hcontents => exact ⟨hfails, hcontents⟩
  | tooLarge hlarge => exact ⟨fun _ => ⟨rfl, rfl⟩, fun h => absurd hlarge h⟩
  | appended t hlarge hsound hcapacity hsize hcontents =>
    exact ⟨fun h => absurd h hlarge, fun _ => ⟨rfl, hcontents⟩⟩

theorem Wrote.sound {w : WriteOutcome × WriteState} (hsound : Sound maxSize s.stream)
    (h : Wrote maxSize allocator s input w) : Sound maxSize w.2.stream := by
  cases h with
  | threw memory hfails hcontents => exact hsound
  | tooLarge hlarge => exact hsound
  | appended t hlarge ht hcapacity hsize hcontents => exact ht

/-- A call that leaves a part of the input leaves no room either. -/
theorem accepted_eq_zero {rest : Range} (hsound : Sound maxSize s.stream)
    (hinput : input.size < 2 ^ 64) (hlt : s.stream.accepted input < input.size)
    (hcapacity : t.stream.capacity = s.stream.capacity)
    (hsize : t.stream.size = s.stream.size + s.stream.accepted input) :
    t.stream.accepted rest = 0 := by
  rw [accepted_eq s.stream hinput] at hlt hsize
  by_cases hlimit : s.stream.capacity = dynamicExtentLimit
  · rw [if_pos hlimit] at hlt
    omega
  · have hbounded := hsound.bounded hlimit
    rw [if_neg hlimit] at hlt hsize
    unfold MemoryWriteStream.remainingCapacity at hlt hsize
    rw [if_neg hlimit] at hlt hsize
    have hfull : ¬t.stream.size < t.stream.capacity := by
      rw [hcapacity]
      by_cases hroom : s.stream.size < s.stream.capacity
      · rw [if_pos hroom] at hlt hsize
        omega
      · omega
    rw [MemoryWriteStream.accepted, MemoryWriteStream.remainingCapacity, hcapacity, if_neg hlimit,
      ← hcapacity, if_neg hfull, Nat.min_zero]

/-- Nothing is read of an input that there is no room for. -/
theorem writeSome_of_full (hinput : input.size < 2 ^ 64) (h : s.stream.accepted input = 0) :
    writeSome maxSize allocator s input = (.returned (.success 0), s) := by
  unfold writeSome
  dsimp only
  rw [← accepted_eq s.stream hinput, if_pos h, ite_self]

/-- What ends in so many rounds ends alike if there are more. -/
theorem writeLoop_more {σ : Type} {writeSome : ℕ → σ → Range → WriteOutcome × σ} {s : σ}
    {fuel round total : ℕ} {w : WriteOutcome × σ} (h : writeLoop writeSome input fuel round total s = some w)
    (more : ℕ) : writeLoop writeSome input (fuel + more) round total s = some w := by
  induction fuel generalizing round total s with
  | zero => cases h
  | succ fuel ih =>
    rw [Nat.succ_add]
    unfold writeLoop at h ⊢
    split at h
    · next hleft =>
      rw [if_pos hleft]
      split at h
      · exact h
      · dsimp only at h ⊢
        split at h
        · next herror =>
          rw [if_pos herror]
          exact h
        · next herror =>
          rw [if_neg herror]
          split at h
          · next hzero =>
            rw [if_pos hzero]
            exact h
          · next hzero =>
            rw [if_neg hzero]
            exact ih h
    · next hdone =>
      rw [if_neg hdone]
      exact h

/-- The result of `write_all`, when so many bytes were accepted. -/
def wholeResult (count size : ℕ) : IoResult ℕ :=
  if count = size then .success count else .failure shortTransferError count

/-- A second round finds no room, or nothing left of the input. -/
theorem writeAll_wrote {allocators : ℕ → Allocator} {fuel : ℕ} (hfuel : 1 < fuel)
    (hsound : Sound maxSize s.stream) (hread : s.stream.Readable maxSize input) :
    ∃ w, writeAll (fun round => writeSome maxSize (allocators round)) fuel s input = some w ∧
      Sound maxSize w.2.stream ∧
      Appends maxSize (∃ round, (allocators round).Fails) s input
        (wholeResult (s.stream.accepted input) input.size) w := by
  obtain ⟨fuel, rfl⟩ : ∃ k, fuel = k + 2 := ⟨fuel - 2, by omega⟩
  have hcount := accepted_le s.stream input
  unfold writeAll writeLoop
  by_cases hempty : input.size = 0
  · have hzero : s.stream.accepted input = 0 := by omega
    refine ⟨_, if_neg (by omega), hsound, fun h => ?_, fun _ => ?_⟩
    · exact absurd h (not_tooLarge_of_zero hsound hzero)
    · rw [hzero, hempty, List.take_zero, List.append_nil]
      exact ⟨rfl, rfl⟩
  · rw [if_pos (by omega), Nat.add_zero, Nat.sub_zero]
    have hwrote : Wrote maxSize (allocators 0) s input _ := writeSome_wrote hsound hread
    dsimp only
    generalize writeSome maxSize (allocators 0) s input = w at hwrote ⊢
    cases hwrote with
    | threw memory hfails hcontents => exact ⟨_, rfl, hsound, ⟨0, hfails⟩, hcontents⟩
    | tooLarge hlarge =>
      exact ⟨_, rfl, hsound, fun _ => ⟨rfl, rfl⟩, fun h => absurd hlarge h⟩
    | appended t hlarge ht hcapacity hsize hcontents =>
      have happends : ∀ result, Appends maxSize (∃ round, (allocators round).Fails) s input result
          (.returned result, t) := fun result =>
        ⟨fun h => absurd h hlarge, fun _ => ⟨rfl, hcontents⟩⟩
      simp only [IoResult.status_success, IoResult.values_success, reduceCtorEq, if_false, Nat.zero_add]
      by_cases hzero : s.stream.accepted input = 0
      · refine ⟨_, if_pos hzero, ht, ?_⟩
        rw [wholeResult, if_neg (by omega)]
        exact happends _
      · rw [if_neg hzero]
        unfold writeLoop
        by_cases hall : s.stream.accepted input = input.size
        · refine ⟨_, if_neg (by omega), ht, ?_⟩
          rw [wholeResult, if_pos hall]
          exact happends _
        -- a part is left, so the second round writes nothing and does not read the moved input
        · have hfull : ∀ rest, t.stream.accepted rest = 0 := fun rest =>
            accepted_eq_zero hsound hread.1 (by omega) hcapacity hsize
          have hrest : input.size - s.stream.accepted input < 2 ^ 64 :=
            (Nat.sub_le _ _).trans_lt hread.1
          rw [if_pos (by omega), writeSome_of_full hrest (hfull _)]
          refine ⟨_, rfl, ht, ?_⟩
          rw [wholeResult, if_neg hall]
          exact happends _

/-! ## Runs -/

theorem Sound.of_empty {s : MemoryWriteStream} (hfits : s.storage.size ≤ s.storage.allocated)
    (hrepresentable : s.storage.size ≤ maxSize) (hsize : s.size = 0)
    (hlent : s.borrowed = true → s.capacity ≠ dynamicExtentLimit) : Sound maxSize s :=
  ⟨hfits, hrepresentable, fun _ => hsize.trans_le (Nat.zero_le _), hlent⟩

theorem sound_constructed (h : Constructed maxSize s) : Sound maxSize s.stream := by
  cases h with
  | default m => exact .of_empty (Nat.le_refl 0) (Nat.zero_le _) rfl fun h => by cases h
  | ofCapacity allocator capacity m s hnew =>
    unfold MemoryWriteStream.ofCapacity at hnew
    split at hnew
    · obtain ⟨⟨memory, storage⟩, hreserve, hresult⟩ := Option.map_eq_some_iff.mp hnew
      cases hresult
      unfold Vector.reserve at hreserve
      split at hreserve
      · cases hreserve
      · obtain ⟨hsize, -⟩ := Vector.makeRoom_eq (Nat.le_refl 0) hreserve
        have hzero : storage.size = 0 := hsize
        exact .of_empty (hzero.trans_le (Nat.zero_le _)) (hzero.trans_le (Nat.zero_le _)) hzero
          fun h => by cases h
    · cases hnew
      exact .of_empty (Nat.le_refl 0) (Nat.zero_le _) rfl fun h => by cases h
  | ofOutput output m hlent =>
    refine .of_empty (Nat.le_refl 0) (Nat.zero_le _) rfl fun _ hlimit => ?_
    -- an output of that size leaves no address for the stream
    obtain ⟨a, hpos, hlt, hout⟩ := hlent.outside
    have hsize : output.size = dynamicExtentLimit := hlimit
    unfold dynamicExtentLimit at hsize
    have hspace := hlent.inSpace (by omega)
    exact hout ⟨by omega, by omega⟩

theorem size_clear (s : MemoryWriteStream) : s.clear.size = 0 := by
  unfold MemoryWriteStream.clear
  split
  · next hborrowed => exact if_pos hborrowed
  · next hborrowed => exact if_neg hborrowed

theorem sound_clear {s : MemoryWriteStream} (h : Sound maxSize s) : Sound maxSize s.clear := by
  have hsize := size_clear s
  unfold MemoryWriteStream.clear at hsize ⊢
  split at hsize
  · next hborrowed =>
    rw [if_pos hborrowed]
    exact .of_empty h.fits h.representable hsize h.lent
  · next hborrowed =>
    rw [if_neg hborrowed]
    exact .of_empty (Nat.zero_le _) (Nat.zero_le _) hsize h.lent

theorem Appends.contents_eq {fails : Prop} {result returned : IoResult ℕ} {w : WriteOutcome × WriteState}
    (h : Appends maxSize fails s input result w) (hw : w.1 = .returned returned)
    (hlarge : ¬TooLarge maxSize s input) :
    w.2.contents = s.contents ++ (Range.read s.memory input).take (s.stream.accepted input) := by
  obtain ⟨outcome, t⟩ := w
  cases hw
  exact (h.2 hlarge).2

/-- What was in the stream before a call is in front of what is in it afterwards. -/
theorem Appends.front {fails : Prop} {result : IoResult ℕ} {w : WriteOutcome × WriteState}
    (h : Appends maxSize fails s input result w) : s.contents <+: w.2.contents := by
  obtain ⟨outcome, t⟩ := w
  cases outcome with
  | threw => exact h.2 ▸ List.prefix_refl _
  | returned returned =>
    by_cases hlarge : TooLarge maxSize s input
    · exact (h.1 hlarge).2 ▸ List.prefix_refl _
    · exact ⟨_, (h.2 hlarge).2.symm⟩

theorem step_spec {operation : Operation} (hsound : Sound maxSize s.stream)
    (h : step maxSize s operation = some t) :
    Sound maxSize t.stream ∧ (operation ≠ .clear → s.contents <+: t.contents) := by
  cases operation with
  | writeSome allocator input =>
    obtain ⟨hread, ht⟩ := Option.ite_none_right_eq_some.mp h
    cases ht
    have hwrote : Wrote maxSize allocator s input _ := writeSome_wrote hsound hread
    exact ⟨hwrote.sound hsound, fun _ => hwrote.appends.front⟩
  | writeAll fuel allocators input =>
    obtain ⟨hread, ht⟩ := Option.ite_none_right_eq_some.mp h
    obtain ⟨w, hw, rfl⟩ := Option.map_eq_some_iff.mp ht
    obtain ⟨w', hw', ht', happends⟩ := writeAll_wrote (Nat.le_add_left 2 fuel) hsound hread
    have hsame : w = w' := Option.some_inj.mp ((writeLoop_more hw 2).symm.trans hw')
    subst hsame
    exact ⟨ht', fun _ => happends.front⟩
  | clear =>
    cases h
    exact ⟨sound_clear hsound, fun h => absurd rfl h⟩
  | elsewhere memory =>
    obtain ⟨hsame, ht⟩ := Option.ite_none_right_eq_some.mp h
    cases ht
    exact ⟨hsound, fun _ => hsame ▸ List.prefix_refl _⟩

/-- In every state of a run, each call appends what there is room for of what its input held before the
call. -/
theorem writes_append_accepted (h : Reachable (step maxSize) (Constructed maxSize) s) :
    (s.stream.capacity ≠ dynamicExtentLimit → s.stream.size ≤ s.stream.capacity) ∧
    (∀ input, s.stream.Readable maxSize input →
      (∀ allocator, Appends maxSize allocator.Fails s input (.success (s.stream.accepted input))
        (writeSome maxSize allocator s input)) ∧
      ∀ (allocators : ℕ → Allocator) fuel, 1 < fuel →
        ∃ w, writeAll (fun round => writeSome maxSize (allocators round)) fuel s input = some w ∧
          Appends maxSize (∃ round, (allocators round).Fails) s input
            (wholeResult (s.stream.accepted input) input.size) w) ∧
    ∀ t operations, run (step maxSize) s operations = some t → .clear ∉ operations →
      s.contents <+: t.contents := by
  have hsound : Sound maxSize s.stream :=
    h.preserves (P := fun s => Sound maxSize s.stream) (fun s hs => sound_constructed hs)
      fun s operation t hs hstep => (step_spec hs hstep).1
  refine ⟨hsound.bounded, fun input hread => ⟨fun allocator => ?_, fun allocators fuel hfuel => ?_⟩, ?_⟩
  · exact (writeSome_wrote hsound hread).appends
  · obtain ⟨w, hw, -, happends⟩ := writeAll_wrote hfuel hsound hread
    exact ⟨w, hw, happends⟩
  · intro t operations hrun hclear
    have hrest := run_preserves_on
      (P := fun t : WriteState => Sound maxSize t.stream ∧ s.contents <+: t.contents)
      (Q := fun operation => operation ≠ Operation.clear)
      (fun u operation v hu hne hstep =>
        have hv := step_spec hu.1 hstep
        ⟨hv.1, hu.2.trans (hv.2 hne)⟩)
      ⟨hsound, List.prefix_refl _⟩ (fun operation hmem he => hclear (he ▸ hmem)) hrun
    exact hrest.2

/-- An allocator that takes the first of some addresses where the bytes fit. -/
def Allocator.firstFit (candidates : List ℕ) : Allocator where
  allocate live n :=
    (candidates.map fun data => Range.mk data n).find? fun block => ∀ r ∈ live, r.Disjoint block
  freed _ := 0
  size_le live n block h := by
    obtain ⟨data, -, rfl⟩ := List.mem_map.mp (List.mem_of_find?_eq_some h)
    exact Nat.le_refl n
  disjoint live n block h := by simpa using List.find?_some h

/-- A stream that appends two of its own bytes while it moves from one block to another. -/
theorem writes_append_accepted_own_bytes :
    ∃ s, Reachable (step 1000) (Constructed 1000) s ∧ s.contents = [97, 98, 99] ∧
      (writeSome 1000 (.firstFit [200, 300, 400]) s ⟨201, 2⟩).2.contents = [97, 98, 99, 98, 99] := by
  let start : WriteState := ⟨fun a => UInt8.ofNat a, {}⟩
  let s := (writeSome 1000 (.firstFit [200, 300, 400]) start ⟨97, 3⟩).2
  have hreach : Reachable (step 1000) (Constructed 1000) s :=
    ⟨start, .default _, [.writeSome (.firstFit [200, 300, 400]) ⟨97, 3⟩], by
      rw [run, step, if_pos (by decide)]
      rfl⟩
  have hread : s.stream.Readable 1000 ⟨201, 2⟩ := by decide +kernel
  have hreturned : (writeSome 1000 (.firstFit [200, 300, 400]) s ⟨201, 2⟩).1 =
      .returned (.success 2) := by decide +kernel
  have hsmall : ¬TooLarge 1000 s ⟨201, 2⟩ := fun h => absurd h.2 (by decide +kernel)
  have hbefore : s.contents = [97, 98, 99] := by decide +kernel
  have hinput : (Range.read s.memory ⟨201, 2⟩).take (s.stream.accepted ⟨201, 2⟩) = [98, 99] := by
    decide +kernel
  clear_value s
  have happends := ((writes_append_accepted hreach).2.1 ⟨201, 2⟩ hread).1 (.firstFit [200, 300, 400])
  refine ⟨s, hreach, hbefore, ?_⟩
  rw [happends.contents_eq hreturned hsmall, hbefore, hinput]
  rfl

end CCForge.ByteStreams
