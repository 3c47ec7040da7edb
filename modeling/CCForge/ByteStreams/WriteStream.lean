import CCForge.Buffers.Model
import CCForge.ByteStreams.Model
import CCForge.Lib.MemoryRange
import CCForge.Lib.Run

/-!
# Writing to a byte stream

`write_some` appends bytes to the vector of the stream, or writes them into an output that the stream
borrows. `write_all` calls it again and again.

The input is a range of the same memory. A vector that grows moves to another block, and what the old
block holds from then on is anything.
-/

namespace CCForge.ByteStreams

open CCForge.Buffers (Memory memmove)
open CCForge.IoCombinators (ErrorCode IoResult IoStatus)

/-! ## Buffers -/

/-- `buffer_prefix`. -/
def bufferPrefix (maxSize : ℕ) (buffer : Range) : Range := ⟨buffer.data, min maxSize buffer.size⟩

/-- `buffer_copy` for two buffers. -/
def bufferCopy (m : Memory Byte) (dest source : Range) : Memory Byte :=
  let count := min dest.size source.size
  if count ≠ 0 then memmove m dest.data source.data count else m

/-! ## std::vector -/

/-- What the allocations and deallocations of a call do. -/
structure Allocator where
  /-- A block of at least so many bytes that shares none with the given ranges, or `std::bad_alloc`. -/
  allocate : List Range → ℕ → Option Range
  /-- What a block that was given back holds. -/
  freed : Memory Byte
  size_le : ∀ live n block, allocate live n = some block → n ≤ block.size
  disjoint : ∀ live n block, allocate live n = some block → ∀ r ∈ live, r.Disjoint block

def Allocator.deallocate (allocator : Allocator) (m : Memory Byte) (block : Range) : Memory Byte := fun a =>
  if block.Mem a then allocator.freed a else m a

/-- `std::vector<std::byte>`, where `allocated` is `capacity()`. -/
structure Vector where
  data : ℕ := 0
  size : ℕ := 0
  allocated : ℕ := 0
  deriving DecidableEq, Repr

/-- `std::byte{}` from an address on. -/
def fill (m : Memory Byte) (data count : ℕ) : Memory Byte := fun a =>
  if data ≤ a ∧ a < data + count then 0 else m a

namespace Vector

def bytes (v : Vector) : Range := ⟨v.data, v.size⟩

def block (v : Vector) : Range := ⟨v.data, v.allocated⟩

/-- The bytes move to another block. -/
def moveTo (allocator : Allocator) (block : Range) (m : Memory Byte) (v : Vector) : Memory Byte × Vector :=
  (allocator.deallocate (memmove m block.data v.data v.size) v.block,
    { data := block.data, size := v.size, allocated := block.size })

/-- Room for `n` bytes. There is none where an exception is thrown. -/
def makeRoom (maxSize : ℕ) (allocator : Allocator) (live : List Range) (n : ℕ) (m : Memory Byte)
    (v : Vector) : Option (Memory Byte × Vector) :=
  if n ≤ v.allocated then some (m, v)
  else if n > maxSize then none
  else (allocator.allocate (v.block :: live) n).map fun block => v.moveTo allocator block m

/-- `resize`, with the other ranges in use. -/
def resize (maxSize : ℕ) (allocator : Allocator) (live : List Range) (n : ℕ) (m : Memory Byte)
    (v : Vector) : Option (Memory Byte × Vector) :=
  if n ≤ v.size then some (m, { v with size := n })
  else
    (v.makeRoom maxSize allocator live n m).map fun (m, v) =>
      (fill m (v.data + v.size) (n - v.size), { v with size := n })

/-- `reserve`. -/
def reserve (maxSize : ℕ) (allocator : Allocator) (n : ℕ) (m : Memory Byte) (v : Vector) :
    Option (Memory Byte × Vector) :=
  if n > maxSize then none else v.makeRoom maxSize allocator [] n m

end Vector

/-- `copy_to_vector`. -/
def copyToVector (maxSize : ℕ) (allocator : Allocator) (live : List Range) (input : Range)
    (m : Memory Byte) : Option (Memory Byte × Vector) :=
  (({} : Vector).resize maxSize allocator (input :: live) input.size m).map fun (m, bytes) =>
    (bufferCopy m bytes.bytes input, bytes)

/-! ## memory_write_stream -/

structure MemoryWriteStream where
  output : Range := {}
  storage : Vector := {}
  position : ℕ := 0
  capacity : ℕ := dynamicExtentLimit
  borrowed : Bool := false
  deriving DecidableEq, Repr

/-- `errc::value_too_large`. -/
def valueTooLarge : ErrorCode := { value := 75, category := 1 }

/-- `short_transfer_error`: `errc::io_error`. -/
def shortTransferError : ErrorCode := { value := 5, category := 1 }

/-- How a call ends. -/
inductive WriteOutcome where
  | returned (result : IoResult ℕ)
  | threw
  deriving DecidableEq, Repr

/-- A stream, and the memory around it. -/
structure WriteState where
  memory : Memory Byte
  stream : MemoryWriteStream

namespace MemoryWriteStream

/-- The constructor for a capacity. -/
def ofCapacity (maxSize : ℕ) (allocator : Allocator) (capacity : ℕ) (m : Memory Byte) :
    Option WriteState :=
  if capacity ≠ dynamicExtentLimit then
    (({} : Vector).reserve maxSize allocator capacity m).map fun (memory, storage) =>
      { memory, stream := { storage, capacity } }
  else some { memory := m, stream := { capacity } }

/-- The constructor for an output. -/
def ofOutput (output : Range) : MemoryWriteStream :=
  { output, capacity := output.size, borrowed := true }

def size (s : MemoryWriteStream) : ℕ := if s.borrowed then s.position else s.storage.size

def remainingCapacity (s : MemoryWriteStream) : ℕ :=
  if s.capacity = dynamicExtentLimit then dynamicExtentLimit
  else if s.size < s.capacity then s.capacity - s.size else 0

def bytes (s : MemoryWriteStream) : Range :=
  if s.borrowed then ⟨s.output.data, s.position⟩ else s.storage.bytes

def clear (s : MemoryWriteStream) : MemoryWriteStream :=
  if s.borrowed then { s with position := 0 } else { s with storage := { s.storage with size := 0 } }

end MemoryWriteStream

/-- `staged_input` and the input that is copied from. -/
def stage (maxSize : ℕ) (allocator : Allocator) (storage : Vector) (count : ℕ) (input : Range)
    (m : Memory Byte) : Option (Memory Byte × Vector × Range) :=
  if storage.size ≠ 0 ∧ storage.data ≤ input.data ∧ input.data < storage.data + storage.size then
    (copyToVector maxSize allocator [storage.block] (bufferPrefix count input) m).map fun (m, staged) =>
      (m, staged, staged.bytes)
  else some (m, {}, input)

/-- `write_some` from `staged_input` on. -/
def appendOwned (maxSize : ℕ) (allocator : Allocator) (s : WriteState) (count : ℕ) (input : Range) :
    WriteOutcome × WriteState :=
  let oldSize := s.stream.storage.size
  match stage maxSize allocator s.stream.storage count input s.memory with
  | none => (.threw, s)
  | some (m, staged, input) =>
    match s.stream.storage.resize maxSize allocator [staged.block, bufferPrefix count input]
        (oldSize + count) m with
    | none => (.threw, { s with memory := allocator.deallocate m staged.block })
    | some (m, storage) =>
      let m := bufferCopy m ⟨storage.data + oldSize, count⟩ (bufferPrefix count input)
      (.returned (.success count),
        { memory := allocator.deallocate m staged.block, stream := { s.stream with storage } })

/-- `write_some`. -/
def writeSome (maxSize : ℕ) (allocator : Allocator) (s : WriteState) (input : Range) :
    WriteOutcome × WriteState :=
  if input.size = 0 then (.returned (.success 0), s)
  else
    let count :=
      if s.stream.capacity = dynamicExtentLimit then input.size
      else min input.size s.stream.remainingCapacity
    if count = 0 then (.returned (.success 0), s)
    else if s.stream.borrowed then
      (.returned (.success count),
        { memory := bufferCopy s.memory ⟨s.stream.output.data + s.stream.position, count⟩
            (bufferPrefix count input)
          stream := { s.stream with position := s.stream.position + count } })
    else if count > maxSize - s.stream.storage.size then (.returned (.failure valueTooLarge 0), s)
    else appendOwned maxSize allocator s count input

/-! ## write_all -/

section Algorithms

-- `writeSome` is given the number of its round.
variable {σ : Type} (writeSome : ℕ → σ → Range → WriteOutcome × σ)

/-- The loop of `write_all`, with at most `fuel` rounds. -/
def writeLoop (input : Range) : ℕ → ℕ → ℕ → σ → Option (WriteOutcome × σ)
  | 0, _, _, _ => none
  | fuel + 1, round, total, s =>
    if total < input.size then
      match writeSome round s ⟨input.data + total, input.size - total⟩ with
      | (.threw, s) => some (.threw, s)
      | (.returned result, s) =>
        let total := total + result.values
        if result.status = .error then some (.returned (.failure result.error total), s)
        else if result.values = 0 then some (.returned (.failure shortTransferError total), s)
        else writeLoop input fuel (round + 1) total s
    else some (.returned (.success total), s)

def writeAll (fuel : ℕ) (s : σ) (input : Range) : Option (WriteOutcome × σ) :=
  writeLoop writeSome input fuel 0 0 s

end Algorithms

/-! ## Runs -/

/-- What the stream holds. -/
def WriteState.contents (s : WriteState) : List Byte := Range.read s.memory s.stream.bytes

/-- The bytes that there is room for. -/
def MemoryWriteStream.accepted (s : MemoryWriteStream) (input : Range) : ℕ :=
  min input.size s.remainingCapacity

/-- The bytes that are copied to a vector are bytes of the stream, or none of its block. -/
def MemoryWriteStream.Readable (maxSize : ℕ) (s : MemoryWriteStream) (input : Range) : Prop :=
  input.size < 2 ^ 64 ∧ (s.borrowed = false → s.size + s.accepted input ≤ maxSize →
    Range.Inside ⟨input.data, s.accepted input⟩ s.bytes ∨
      Range.Disjoint ⟨input.data, s.accepted input⟩ s.storage.block)

instance (maxSize : ℕ) (s : MemoryWriteStream) (input : Range) : Decidable (s.Readable maxSize input) :=
  inferInstanceAs (Decidable (_ ∧ _))

inductive Operation where
  | writeSome (allocator : Allocator) (input : Range)
  | writeAll (fuel : ℕ) (allocators : ℕ → Allocator) (input : Range)
  | clear
  /-- The rest of the program changes the memory, but no byte of the stream. -/
  | elsewhere (memory : Memory Byte)

def step (maxSize : ℕ) (s : WriteState) : Operation → Option WriteState
  | .writeSome allocator input =>
    if s.stream.Readable maxSize input then some (writeSome maxSize allocator s input).2 else none
  | .writeAll fuel allocators input =>
    if s.stream.Readable maxSize input then
      (writeAll (fun round => writeSome maxSize (allocators round)) fuel s input).map Prod.snd
    else none
  | .clear => some { s with stream := s.stream.clear }
  | .elsewhere memory =>
    if Range.read memory s.stream.bytes = s.contents then some { s with memory } else none

/-- The output is in the address space, and the stream itself is not in it. -/
structure Lent (output : Range) : Prop where
  inSpace : output.size ≠ 0 → 0 < output.data ∧ output.data + output.size ≤ 2 ^ 64
  outside : ∃ a, 0 < a ∧ a < 2 ^ 64 ∧ ¬output.Mem a

/-- After a constructor. -/
inductive Constructed (maxSize : ℕ) : WriteState → Prop
  | default (m : Memory Byte) : Constructed maxSize ⟨m, {}⟩
  | ofCapacity (allocator : Allocator) (capacity : ℕ) (m : Memory Byte) (s : WriteState)
      (h : MemoryWriteStream.ofCapacity maxSize allocator capacity m = some s) : Constructed maxSize s
  | ofOutput (output : Range) (m : Memory Byte) (h : Lent output) :
      Constructed maxSize ⟨m, .ofOutput output⟩

end CCForge.ByteStreams
