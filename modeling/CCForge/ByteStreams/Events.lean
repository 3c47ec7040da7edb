import CCForge.ByteStreams.Model

/-!
# One event at a time

What a stream still has to deliver, as a list of events, and what the algorithms make of it when
they take one event at a time.
-/

namespace CCForge.ByteStreams

open CCForge.IoCombinators (ErrorCode IoResult IoStatus)

inductive Event where
  | byte (b : Byte)
  /-- The last byte of a step that completes with an error. -/
  | byteWithError (b : Byte) (e : ErrorCode)
  | error (e : ErrorCode)
  | eof
  deriving DecidableEq, Repr

/-- How an algorithm ends. -/
inductive Ending where
  | success
  | endOfFile
  | failure (e : ErrorCode)
  deriving DecidableEq, Repr

def Ending.result (total : ℕ) : Ending → IoResult ℕ
  | success => .success total
  | endOfFile => .endOfFile total
  | failure e => .failure e total

/-- What an algorithm read, how it ended and what it left. -/
structure Outcome where
  bytes : List Byte
  ending : Ending
  rest : List Event
  deriving DecidableEq, Repr

/-- The outcome after some bytes before it. -/
def Outcome.after (bytes : List Byte) (o : Outcome) : Outcome := { o with bytes := bytes ++ o.bytes }

/-- Reads `n` bytes. An end of file is not taken off. -/
def exactly : ℕ → List Event → Outcome
  | 0, events => ⟨[], .success, events⟩
  | _ + 1, [] => ⟨[], .endOfFile, []⟩
  | n + 1, .byte b :: events => (exactly n events).after [b]
  | _ + 1, .byteWithError b e :: events => ⟨[b], .failure e, events⟩
  | _ + 1, .error e :: events => ⟨[], .failure e, events⟩
  | _ + 1, .eof :: events => ⟨[], .endOfFile, .eof :: events⟩

/-- Reads up to the delimiter and not more than `n` bytes. -/
def upTo (delimiter : Byte) : ℕ → List Event → Outcome
  | 0, events => ⟨[], .failure recordTooLargeError, events⟩
  | _ + 1, [] => ⟨[], .endOfFile, []⟩
  | n + 1, .byte b :: events =>
    if b = delimiter then ⟨[b], .success, events⟩ else (upTo delimiter n events).after [b]
  | _ + 1, .byteWithError b e :: events => ⟨[b], .failure e, events⟩
  | _ + 1, .error e :: events => ⟨[], .failure e, events⟩
  | _ + 1, .eof :: events => ⟨[], .endOfFile, .eof :: events⟩

/-! ## The events of the streams -/

/-- The events of bytes whose last one carries an error. -/
def withError (e : ErrorCode) : List Byte → List Event
  | [] => [.error e]
  | [b] => [.byteWithError b e]
  | b :: bytes => .byte b :: withError e bytes

def ScriptedReadStep.events (step : ScriptedReadStep) : List Event :=
  match step.kind with
  | .eof => [.eof]
  | .error => [.error step.error]
  | .bytes =>
    if step.completesWithError then withError step.error (step.bytes.drop step.position)
    else (step.bytes.drop step.position).map .byte

def ScriptedReadStream.events (steps : ScriptedReadStream) : List Event :=
  steps.flatMap ScriptedReadStep.events

def MemoryReadStream.events (s : MemoryReadStream) : List Event := (s.input.drop s.position).map .byte

/-! ## One call -/

/-- What one call for `size` bytes may deliver of the events: as many bytes as it likes, but one at
least, and an error with the byte that carries it. -/
inductive Delivers (size : ℕ) : List Event → Reading → List Event → Prop
  | bytes (bytes : List Byte) (events : List Event) (hpos : 0 < bytes.length)
      (hle : bytes.length ≤ size) :
      Delivers size (bytes.map .byte ++ events) ⟨.success bytes.length, bytes⟩ events
  | bytesWithError (bytes : List Byte) (b : Byte) (e : ErrorCode) (events : List Event)
      (hle : bytes.length + 1 ≤ size) :
      Delivers size (bytes.map .byte ++ .byteWithError b e :: events)
        ⟨.failure e (bytes.length + 1), bytes ++ [b]⟩ events
  | error (e : ErrorCode) (events : List Event) :
      Delivers size (.error e :: events) ⟨.failure e 0, []⟩ events
  | eof (events : List Event) : Delivers size (.eof :: events) ⟨.endOfFile 0, []⟩ (.eof :: events)
  | done : Delivers size [] ⟨.endOfFile 0, []⟩ []

/-- A stream whose calls deliver its events in order. -/
def DeliversInOrder {Stream : Type} (readSome : Stream → ℕ → Reading × Stream)
    (events : Stream → List Event) : Prop :=
  ∀ stream size, 0 < size →
    Delivers size (events stream) (readSome stream size).1 (events (readSome stream size).2)

/-! ## Results that do not depend on the calls -/

/-- `read_exactly` gives what the events give, and no other byte of the output changes. -/
def ExactlyTakesEvents {Stream : Type} (readSome : Stream → ℕ → Reading × Stream)
    (events : Stream → List Event) : Prop :=
  ∀ stream output fuel, output.length < fuel →
    ∃ stream', readExactly readSome fuel stream output =
        some ((exactly output.length (events stream)).ending.result
            (exactly output.length (events stream)).bytes.length,
          (exactly output.length (events stream)).bytes ++
            output.drop (exactly output.length (events stream)).bytes.length, stream') ∧
      events stream' = (exactly output.length (events stream)).rest

def UntilTakesEvents {Stream : Type} (readSome : Stream → ℕ → Reading × Stream)
    (events : Stream → List Event) : Prop :=
  ∀ stream delimiter maxBytes fuel, min maxBytes (events stream).length < fuel →
    ∃ stream', readUntil readSome fuel stream delimiter maxBytes =
        some ((upTo delimiter maxBytes (events stream)).ending.result
            (upTo delimiter maxBytes (events stream)).bytes.length,
          (upTo delimiter maxBytes (events stream)).bytes, stream') ∧
      events stream' = (upTo delimiter maxBytes (events stream)).rest

/-- What an algorithm shows of its run: the result, the bytes and the events that are left. -/
def observed {Stream : Type} (events : Stream → List Event)
    (run : Option (IoResult ℕ × List Byte × Stream)) : Option (IoResult ℕ × List Byte × List Event) :=
  run.map fun r => (r.1, r.2.1, events r.2.2)

end CCForge.ByteStreams
