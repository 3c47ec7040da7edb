import CCForge.IoCombinators.Result
import Mathlib.Algebra.Group.Nat.Defs

/-!
# Reading from byte streams

`read_some` reads at most as many bytes as its output has. `read_exactly` and `read_until` call it
again and again. There are two streams: one over a buffer, and one that follows a script.
-/

namespace CCForge.ByteStreams

open CCForge.IoCombinators (ErrorCode IoResult IoStatus)

abbrev Byte := UInt8

/-- The result of `read_some`, with the bytes that it wrote at the beginning of its output. -/
structure Reading where
  result : IoResult ℕ
  bytes : List Byte
  deriving DecidableEq, Repr

/-- The output after bytes were written at an offset. -/
def store (output : List Byte) (offset : ℕ) (bytes : List Byte) : List Byte :=
  output.take offset ++ bytes ++ output.drop (offset + bytes.length)

/-! ## The algorithms -/

section Algorithms

-- `readSome` reads from a stream for an output of the given size.
variable {Stream : Type} (readSome : Stream → ℕ → Reading × Stream)

/-- The loop of `read_exactly`, with at most `fuel` rounds. -/
def exactLoop : ℕ → ℕ → List Byte → Stream → Option (IoResult ℕ × List Byte × Stream)
  | 0, _, _, _ => none
  | fuel + 1, total, output, stream =>
    if total < output.length then
      let (reading, stream) := readSome stream (output.length - total)
      let output := store output total reading.bytes
      let total := total + reading.result.values
      if reading.result.status = .error then some (.failure reading.result.error total, output, stream)
      else if total = output.length then some (.success total, output, stream)
      else if reading.result.eof ∨ reading.result.values = 0 then
        some (.endOfFile total, output, stream)
      else exactLoop fuel total output stream
    else some (.success total, output, stream)

def readExactly (fuel : ℕ) (stream : Stream) (output : List Byte) :
    Option (IoResult ℕ × List Byte × Stream) :=
  exactLoop readSome fuel 0 output stream

/-- `record_too_large_error`: `errc::message_size`. -/
def recordTooLargeError : ErrorCode := { value := 90, category := 1 }

/-- The loop of `read_until`, with at most `fuel` rounds. -/
def untilLoop (delimiter : Byte) (maxBytes : ℕ) :
    ℕ → ℕ → List Byte → Stream → Option (IoResult ℕ × List Byte × Stream)
  | 0, _, _, _ => none
  | fuel + 1, total, output, stream =>
    if total < maxBytes then
      let (reading, stream) := readSome stream 1
      let byte := reading.bytes.headD 0
      let count := reading.result.values
      let total := if count > 0 then total + 1 else total
      let output := if count > 0 then output ++ [byte] else output
      if reading.result.status = .error then some (.failure reading.result.error total, output, stream)
      else if count > 0 ∧ output.getLast? = some delimiter then some (.success total, output, stream)
      else if reading.result.eof ∨ count = 0 then some (.endOfFile total, output, stream)
      else untilLoop delimiter maxBytes fuel total output stream
    else some (.failure recordTooLargeError total, output, stream)

def readUntil (fuel : ℕ) (stream : Stream) (delimiter : Byte) (maxBytes : ℕ) :
    Option (IoResult ℕ × List Byte × Stream) :=
  untilLoop readSome delimiter maxBytes fuel 0 [] stream

end Algorithms

/-! ## memory_read_stream -/

/-- `dynamic_extent_limit`. -/
def dynamicExtentLimit : ℕ := 2 ^ 64 - 1

structure MemoryReadStream where
  input : List Byte
  position : ℕ
  maxReadSize : ℕ
  inRange : position ≤ input.length
  deriving DecidableEq, Repr

namespace MemoryReadStream

/-- The constructors. -/
def new (input : List Byte) (maxReadSize : ℕ) : MemoryReadStream := ⟨input, 0, maxReadSize, Nat.zero_le _⟩

def remaining (s : MemoryReadStream) : ℕ := s.input.length - s.position

/-- The bytes that one call may transfer. -/
def count (s : MemoryReadStream) (size : ℕ) : ℕ :=
  let transferLimit := if s.maxReadSize = 0 then dynamicExtentLimit else s.maxReadSize
  min size (min s.remaining transferLimit)

theorem count_le_remaining (s : MemoryReadStream) (size : ℕ) : s.count size ≤ s.remaining :=
  Nat.le_trans (Nat.min_le_right _ _) (Nat.min_le_left _ _)

def readSome (s : MemoryReadStream) (size : ℕ) : Reading × MemoryReadStream :=
  if size = 0 then (⟨.success 0, []⟩, s)
  else if s.remaining = 0 then (⟨.endOfFile 0, []⟩, s)
  else
    (⟨.success (s.count size), (s.input.drop s.position).take (s.count size)⟩,
      { s with
        position := s.position + s.count size
        inRange := by
          have hle := s.count_le_remaining size
          have hrange := s.inRange
          unfold remaining at hle
          omega })

end MemoryReadStream

/-! ## scripted_read_stream -/

/-- `scripted_read_step::kind`. -/
inductive StepKind where
  | bytes
  | error
  | eof
  deriving DecidableEq, Repr

structure ScriptedReadStep where
  kind : StepKind := .eof
  bytes : List Byte := []
  position : ℕ := 0
  error : ErrorCode := {}
  completesWithError : Bool := false
  inRange : position ≤ bytes.length := by exact Nat.zero_le _
  deriving DecidableEq, Repr

namespace ScriptedReadStep

def ofBytes (input : List Byte) : ScriptedReadStep := { kind := .bytes, bytes := input }

def bytesThenError (input : List Byte) (error : ErrorCode) : ScriptedReadStep :=
  { ofBytes input with error := error, completesWithError := true }

def ofError (error : ErrorCode) : ScriptedReadStep := { kind := .error, error := error }

def ofEof : ScriptedReadStep := {}

def available (step : ScriptedReadStep) : ℕ := step.bytes.length - step.position

/-- The step after bytes of it were copied to an output of the given size. -/
def consume (step : ScriptedReadStep) (size : ℕ) : ScriptedReadStep :=
  { step with
    position := step.position + min size step.available
    inRange := by
      have hrange := step.inRange
      unfold available
      omega }

end ScriptedReadStep

/-- The steps that are left. -/
abbrev ScriptedReadStream := List ScriptedReadStep

namespace ScriptedReadStream

/-- `read_bytes_step` for the front step. -/
def readBytesStep (step : ScriptedReadStep) (steps : ScriptedReadStream) (size : ℕ) :
    Reading × ScriptedReadStream :=
  if step.available = 0 then
    if step.completesWithError then (⟨.failure step.error 0, []⟩, steps)
    else (⟨.endOfFile 0, []⟩, steps)
  else
    let copied := min size step.available
    let bytes := (step.bytes.drop step.position).take copied
    if (step.consume size).position = step.bytes.length then
      if step.completesWithError then (⟨.failure step.error copied, bytes⟩, steps)
      else (⟨.success copied, bytes⟩, steps)
    else (⟨.success copied, bytes⟩, step.consume size :: steps)

/-- The loop of `read_some`. -/
def readLoop (size : ℕ) : ScriptedReadStream → Reading × ScriptedReadStream
  | [] => (⟨.endOfFile 0, []⟩, [])
  | step :: steps =>
    match step.kind with
    | .eof => (⟨.endOfFile 0, []⟩, step :: steps)
    | .error => (⟨.failure step.error 0, []⟩, steps)
    | .bytes =>
      if step.position = step.bytes.length ∧ ¬step.completesWithError then readLoop size steps
      else readBytesStep step steps size

def readSome (stream : ScriptedReadStream) (size : ℕ) : Reading × ScriptedReadStream :=
  if size = 0 then (⟨.success 0, []⟩, stream) else readLoop size stream

end ScriptedReadStream

end CCForge.ByteStreams
