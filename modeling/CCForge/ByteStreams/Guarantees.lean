import Mathlib.Tactic.Common
import CCForge.ByteStreams.Events

/-!
# Chunks do not matter

A call may deliver any number of bytes. The algorithms end as if they took one event at a time, for
every stream whose calls deliver its events in order, and both streams are of this kind.
-/

namespace CCForge.ByteStreams

open CCForge.IoCombinators (ErrorCode IoResult IoStatus)

variable {bytes output second : List Byte} {n size total : ℕ}

/-! ## Outputs -/

theorem length_store (h : total + bytes.length ≤ output.length) :
    (store output total bytes).length = output.length := by
  simp [store]
  omega

@[simp] theorem store_nil (output : List Byte) (total : ℕ) : store output total [] = output := by
  simp [store]

/-- Bytes that are stored one after another are stored together. -/
theorem store_store (h : total ≤ output.length) :
    store (store output total bytes) (total + bytes.length) second =
      store output total (bytes ++ second) := by
  have hlen : (output.take total ++ bytes).length = total + bytes.length := by
    simp [h]
  unfold store
  rw [List.take_left' hlen, List.drop_append, List.drop_eq_nil_of_le (by omega), hlen, List.nil_append,
    List.drop_drop, List.length_append, ← List.append_assoc]
  congr 2
  omega

/-! ## read_exactly -/

@[simp] theorem Outcome.after_nil (o : Outcome) : o.after [] = o := rfl

theorem exactly_bytes (bytes : List Byte) (n : ℕ) (events : List Event) :
    exactly (bytes.length + n) (bytes.map .byte ++ events) = (exactly n events).after bytes := by
  induction bytes with
  | nil => simp
  | cons b bytes ih =>
    rw [List.length_cons, Nat.add_right_comm, List.map_cons, List.cons_append, exactly, ih]
    rfl

theorem exactly_bytesWithError (bytes : List Byte) (b : Byte) (e : ErrorCode)
    (h : bytes.length < n) (events : List Event) :
    exactly n (bytes.map .byte ++ .byteWithError b e :: events) =
      ⟨bytes ++ [b], .failure e, events⟩ := by
  obtain ⟨k, rfl⟩ : ∃ k, n = bytes.length + (k + 1) := ⟨n - bytes.length - 1, by omega⟩
  rw [exactly_bytes]
  rfl

section Algorithms

variable {Stream : Type} {readSome : Stream → ℕ → Reading × Stream} {eventsOf : Stream → List Event}

/-- The loop ends as the events say, at the place of the output that it has reached. -/
theorem exactLoop_eq (hstream : DeliversInOrder readSome eventsOf) {fuel : ℕ} (total : ℕ)
    (output : List Byte) (stream : Stream) (htotal : total ≤ output.length)
    (hfuel : output.length - total < fuel) :
    ∃ stream', exactLoop readSome fuel total output stream =
        some ((exactly (output.length - total) (eventsOf stream)).ending.result
            (total + (exactly (output.length - total) (eventsOf stream)).bytes.length),
          store output total (exactly (output.length - total) (eventsOf stream)).bytes, stream') ∧
      eventsOf stream' = (exactly (output.length - total) (eventsOf stream)).rest := by
  induction fuel generalizing total output stream with
  | zero => omega
  | succ fuel ih =>
    unfold exactLoop
    by_cases hlt : total < output.length
    · rw [if_pos hlt]
      have hdelivers := hstream stream (output.length - total) (by omega)
      obtain ⟨k, hk⟩ : ∃ k, output.length - total = k + 1 := ⟨output.length - total - 1, by omega⟩
      cases hread : readSome stream (output.length - total) with
      | mk reading stream₁ =>
        rw [hread] at hdelivers
        dsimp only at hdelivers ⊢
        -- from here on only the events before and after the call matter, not the stream
        generalize eventsOf stream = events at hdelivers ⊢
        generalize hrest : eventsOf stream₁ = rest at hdelivers
        cases hdelivers with
        | bytes bytes events hpos hle =>
          have hn : output.length - total =
              bytes.length + (output.length - (total + bytes.length)) := by omega
          have houtcome := exactly_bytes bytes (output.length - (total + bytes.length)) rest
          rw [← hn] at houtcome
          have hlen : (store output total bytes).length = output.length := length_store (by omega)
          simp only [IoResult.status_success, IoResult.values_success, hlen]
          -- a full output ends the loop before the next call
          by_cases hfull : total + bytes.length = output.length
          · have hzero : output.length - (total + bytes.length) = 0 := by omega
            rw [hzero] at houtcome
            rw [if_neg (by decide), if_pos hfull, houtcome]
            exact ⟨stream₁, by simp [exactly, Outcome.after, Ending.result], hrest⟩
          · have heof : ¬((IoResult.success bytes.length).eof = true ∨ bytes.length = 0) := by
              rintro (heof | hzero)
              · cases heof
              · omega
            obtain ⟨stream', hloop, hrest'⟩ :=
              ih (total + bytes.length) (store output total bytes) stream₁ (by omega) (by omega)
            rw [hlen, hrest] at hloop hrest'
            rw [if_neg (by decide), if_neg hfull, houtcome]
            refine ⟨stream', (if_neg heof).trans ?_, hrest'⟩
            rw [hloop, store_store htotal]
            simp [Outcome.after, Nat.add_assoc]
        | bytesWithError bytes b e events hle =>
          rw [exactly_bytesWithError bytes b e (by omega)]
          exact ⟨stream₁, by simp [Ending.result], hrest⟩
        | error e events =>
          rw [hk]
          exact ⟨stream₁, by simp [exactly, Ending.result], hrest⟩
        | eof events =>
          rw [hk]
          refine ⟨stream₁, ?_, hrest⟩
          simp [exactly, Ending.result, Nat.ne_of_lt hlt, IoResult.eof]
        | done =>
          rw [hk]
          refine ⟨stream₁, ?_, hrest⟩
          simp [exactly, Ending.result, Nat.ne_of_lt hlt, IoResult.eof]
    · have hzero : output.length - total = 0 := by omega
      rw [if_neg hlt, hzero]
      exact ⟨stream, by simp [exactly, Ending.result], rfl⟩

/-! ## read_until -/

theorem untilLoop_eq (hstream : DeliversInOrder readSome eventsOf) (delimiter : Byte) (maxBytes : ℕ)
    {fuel : ℕ} (output : List Byte) (stream : Stream) (htotal : output.length ≤ maxBytes)
    (hfuel : min (maxBytes - output.length) (eventsOf stream).length < fuel) :
    ∃ stream', untilLoop readSome delimiter maxBytes fuel output.length output stream =
        some ((upTo delimiter (maxBytes - output.length) (eventsOf stream)).ending.result
            (output ++ (upTo delimiter (maxBytes - output.length) (eventsOf stream)).bytes).length,
          output ++ (upTo delimiter (maxBytes - output.length) (eventsOf stream)).bytes, stream') ∧
      eventsOf stream' = (upTo delimiter (maxBytes - output.length) (eventsOf stream)).rest := by
  induction fuel generalizing output stream with
  | zero => omega
  | succ fuel ih =>
    unfold untilLoop
    by_cases hlt : output.length < maxBytes
    · rw [if_pos hlt]
      have hdelivers := hstream stream 1 Nat.one_pos
      obtain ⟨k, hk⟩ : ∃ k, maxBytes - output.length = k + 1 := ⟨maxBytes - output.length - 1, by omega⟩
      cases hread : readSome stream 1 with
      | mk reading stream₁ =>
        rw [hread] at hdelivers
        dsimp only at hdelivers ⊢
        generalize eventsOf stream = events at hdelivers hfuel ⊢
        generalize hrest : eventsOf stream₁ = rest at hdelivers
        rw [hk] at hfuel ⊢
        cases hdelivers with
        | bytes bytes events hpos hle =>
          -- the loop asks for one byte at a time, so a delivery is one event
          obtain ⟨b, rfl⟩ : ∃ b, bytes = [b] := List.length_eq_one_iff.mp (by omega)
          have hnext : maxBytes - (output ++ [b]).length = k := by
            rw [List.length_append, List.length_singleton]
            omega
          by_cases hdelimiter : b = delimiter
          · refine ⟨stream₁, ?_, ?_⟩
            · simp [upTo, hdelimiter, Ending.result]
            · simp [upTo, hdelimiter, hrest]
          · obtain ⟨stream', hloop, hrest'⟩ := ih (output ++ [b]) stream₁ (by simp; omega) (by
              rw [hnext, hrest]
              simp at hfuel
              omega)
            rw [hnext, hrest] at hloop hrest'
            rw [List.length_append, List.length_singleton] at hloop
            refine ⟨stream', ?_, ?_⟩
            · simp [upTo, hdelimiter, IoResult.eof, hloop, Outcome.after]
            · simp [upTo, hdelimiter, hrest', Outcome.after]
        | bytesWithError bytes b e events hle =>
          obtain rfl : bytes = [] := List.length_eq_zero_iff.mp (by omega)
          exact ⟨stream₁, by simp [upTo, Ending.result], by simp [upTo, hrest]⟩
        | error e events => exact ⟨stream₁, by simp [upTo, Ending.result], hrest⟩
        | eof events => exact ⟨stream₁, by simp [upTo, Ending.result, IoResult.eof], hrest⟩
        | done => exact ⟨stream₁, by simp [upTo, Ending.result, IoResult.eof], hrest⟩
    · have hzero : maxBytes - output.length = 0 := by omega
      rw [if_neg hlt, hzero]
      exact ⟨stream, by simp [upTo, Ending.result], rfl⟩

end Algorithms

/-! ## memory_read_stream -/

theorem MemoryReadStream.count_pos {s : MemoryReadStream} (hsize : 0 < size) (h : s.remaining ≠ 0) :
    0 < s.count size := by
  have hlimit : 0 < dynamicExtentLimit := by decide
  unfold MemoryReadStream.count
  dsimp only
  split <;> omega

theorem MemoryReadStream.delivers : DeliversInOrder readSome MemoryReadStream.events := by
  intro s size hsize
  have hrange := s.inRange
  unfold readSome
  rw [if_neg (by omega)]
  split
  · next hzero =>
    unfold remaining at hzero
    have hevents : s.events = [] := by
      rw [events, List.drop_eq_nil_of_le (by omega), List.map_nil]
    rw [hevents]
    exact .done
  · next hne =>
    have hpos := count_pos hsize hne
    have hle := s.count_le_remaining size
    have hsizele : s.count size ≤ size := Nat.min_le_left _ _
    have hlen : ((s.input.drop s.position).take (s.count size)).length = s.count size := by
      rw [List.length_take, List.length_drop]
      exact Nat.min_eq_left hle
    have hevents : s.events = ((s.input.drop s.position).take (s.count size)).map .byte ++
        (s.input.drop (s.position + s.count size)).map .byte := by
      rw [events, ← List.map_append, ← List.drop_drop, List.take_append_drop]
    have hdelivers : Delivers size _ _ _ := Delivers.bytes ((s.input.drop s.position).take (s.count size))
      ((s.input.drop (s.position + s.count size)).map .byte) (by omega) (by omega)
    rw [hlen, ← hevents] at hdelivers
    exact hdelivers

/-! ## scripted_read_stream -/

theorem withError_append (e : ErrorCode) (first : List Byte) (hsecond : second ≠ []) :
    withError e (first ++ second) = first.map .byte ++ withError e second := by
  induction first with
  | nil => rfl
  | cons b first ih =>
    rw [List.cons_append, List.map_cons, List.cons_append, ← ih]
    cases hrest : first ++ second with
    | nil => exact absurd (List.append_eq_nil_iff.mp hrest).2 hsecond
    | cons c rest => rfl

theorem withError_concat (e : ErrorCode) (first : List Byte) (b : Byte) :
    withError e (first ++ [b]) = first.map .byte ++ [.byteWithError b e] :=
  withError_append e first (List.cons_ne_nil b [])

theorem ScriptedReadStream.events_cons (step : ScriptedReadStep) (steps : ScriptedReadStream) :
    events (step :: steps) = step.events ++ events steps := rfl

/-- The front step delivers its bytes from the position on. -/
theorem ScriptedReadStream.readBytesStep_delivers {step : ScriptedReadStep} (steps : ScriptedReadStream)
    (hkind : step.kind = .bytes) (hsize : 0 < size)
    (hstep : ¬(step.position = step.bytes.length ∧ ¬step.completesWithError)) :
    Delivers size (step.events ++ events steps) (readBytesStep step steps size).1
      (events (readBytesStep step steps size).2) := by
  have hrange := step.inRange
  let copied := min size step.available
  have hsplit : step.bytes.drop step.position =
      (step.bytes.drop step.position).take copied ++ step.bytes.drop (step.position + copied) := by
    rw [← List.drop_drop, List.take_append_drop]
  have hlen : ((step.bytes.drop step.position).take copied).length = copied := by
    rw [List.length_take, List.length_drop]
    exact Nat.min_eq_left (Nat.min_le_right _ _)
  have hcopied : copied ≤ size := Nat.min_le_left _ _
  unfold readBytesStep
  split
  · next hnone =>
    -- Only a step that carries an error is read at its end.
    unfold ScriptedReadStep.available at hnone
    have herror : step.completesWithError = true := by
      by_contra hno
      exact hstep ⟨by omega, hno⟩
    have hevents : step.events = [.error step.error] := by
      rw [ScriptedReadStep.events, hkind]
      dsimp only
      rw [if_pos herror, List.drop_eq_nil_of_le (by omega)]
      rfl
    rw [if_pos herror, hevents]
    exact .error step.error (events steps)
  · next hsome =>
    have hpos : 0 < copied := by omega
    dsimp only
    split
    · next hend =>
      have hend' : step.position + copied = step.bytes.length := hend
      rw [hend', List.drop_length, List.append_nil] at hsplit
      split
      -- the last byte carries the error of the step
      · next herror =>
        obtain ⟨first, b, hfirst⟩ : ∃ first b, step.bytes.drop step.position = first ++ [b] :=
          ⟨_, _, (List.dropLast_concat_getLast (by
            intro hnil
            rw [← hsplit, hnil] at hlen
            rw [List.length_nil] at hlen
            omega)).symm⟩
        have hevents : step.events = first.map .byte ++ [.byteWithError b step.error] := by
          rw [ScriptedReadStep.events, hkind]
          dsimp only
          rw [if_pos herror, hfirst, withError_concat]
        have hcount : copied = first.length + 1 := by
          rw [← hlen, ← hsplit, hfirst, List.length_append, List.length_singleton]
        have hdelivers : Delivers size _ _ _ := Delivers.bytesWithError first b step.error (events steps)
          (by omega)
        rw [hevents, List.append_assoc]
        change Delivers size _ ⟨.failure step.error copied, (step.bytes.drop step.position).take copied⟩ _
        rw [← hsplit, hfirst, hcount]
        exact hdelivers
      · next hno =>
        have hevents : step.events = (step.bytes.drop step.position).map .byte := by
          rw [ScriptedReadStep.events, hkind]
          exact if_neg hno
        have hdelivers : Delivers size _ _ _ := Delivers.bytes ((step.bytes.drop step.position).take copied)
          (events steps) (by omega) (by omega)
        rw [hlen, ← hsplit, ← hevents] at hdelivers
        rw [hsplit] at hdelivers
        exact hdelivers
    -- the step stays at the front, and its error stays with the last byte
    · next hmore =>
      have hmore' : step.position + copied ≠ step.bytes.length := hmore
      have hlt : step.position + copied < step.bytes.length := by
        have hle : copied ≤ step.available := Nat.min_le_right _ _
        unfold ScriptedReadStep.available at hle
        omega
      have hevents : step.events = ((step.bytes.drop step.position).take copied).map .byte ++
          (step.consume size).events := by
        have hkind' : (step.consume size).kind = .bytes := hkind
        rw [ScriptedReadStep.events, ScriptedReadStep.events, hkind, hkind']
        dsimp only
        change _ = _ ++ if step.completesWithError = true then
          withError step.error (step.bytes.drop (step.position + copied))
          else (step.bytes.drop (step.position + copied)).map .byte
        have hne : step.bytes.drop (step.position + copied) ≠ [] := by
          rw [ne_eq, List.drop_eq_nil_iff]
          omega
        split
        · rw [← withError_append step.error _ hne, ← hsplit]
        · rw [← List.map_append, ← hsplit]
      have hdelivers : Delivers size _ _ _ := Delivers.bytes ((step.bytes.drop step.position).take copied)
        ((step.consume size).events ++ events steps) (by omega) (by omega)
      rw [hlen, ← List.append_assoc, ← hevents] at hdelivers
      exact hdelivers

theorem ScriptedReadStream.delivers : DeliversInOrder readSome ScriptedReadStream.events := by
  intro stream size hsize
  unfold readSome
  rw [if_neg (by omega)]
  induction stream with
  | nil => exact .done
  | cons step steps ih =>
    rw [events_cons, readLoop]
    cases hkind : step.kind with
    | eof =>
      have hevents : step.events = [.eof] := by
        rw [ScriptedReadStep.events, hkind]
      change Delivers size _ _ (step.events ++ events steps)
      rw [hevents]
      exact .eof (events steps)
    | error =>
      have hevents : step.events = [.error step.error] := by
        rw [ScriptedReadStep.events, hkind]
      rw [hevents]
      exact .error step.error (events steps)
    | bytes =>
      dsimp only
      split
      · next hempty =>
        have hevents : step.events = [] := by
          rw [ScriptedReadStep.events, hkind]
          dsimp only
          rw [if_neg hempty.2, List.drop_eq_nil_of_le (Nat.le_of_eq hempty.1.symm), List.map_nil]
        rw [hevents]
        exact ih
      · next hstep => exact readBytesStep_delivers steps hkind hsize hstep

/-! ## The results -/

section Results

variable {Stream : Type} {readSome : Stream → ℕ → Reading × Stream} {eventsOf : Stream → List Event}

theorem DeliversInOrder.exactlyTakesEvents (h : DeliversInOrder readSome eventsOf) :
    ExactlyTakesEvents readSome eventsOf := by
  intro stream output fuel hfuel
  obtain ⟨stream', hloop, hrest⟩ := exactLoop_eq h 0 output stream (Nat.zero_le _) hfuel
  refine ⟨stream', ?_, hrest⟩
  rw [readExactly, hloop]
  simp [store]

theorem DeliversInOrder.untilTakesEvents (h : DeliversInOrder readSome eventsOf) :
    UntilTakesEvents readSome eventsOf := by
  intro stream delimiter maxBytes fuel hfuel
  obtain ⟨stream', hloop, hrest⟩ := untilLoop_eq h delimiter maxBytes [] stream (Nat.zero_le _) hfuel
  exact ⟨stream', hloop, hrest⟩

/-- Streams with the same events show the same. -/
theorem observed_readExactly (h : DeliversInOrder readSome eventsOf) {s s' : Stream}
    (hevents : eventsOf s = eventsOf s') {fuel : ℕ} (hfuel : output.length < fuel) :
    observed eventsOf (readExactly readSome fuel s output) =
      observed eventsOf (readExactly readSome fuel s' output) := by
  obtain ⟨t, ht, hrest⟩ := h.exactlyTakesEvents s output fuel hfuel
  obtain ⟨t', ht', hrest'⟩ := h.exactlyTakesEvents s' output fuel hfuel
  rw [ht, ht', observed, observed, Option.map_some, Option.map_some, hrest, hrest', hevents]

theorem observed_readUntil (h : DeliversInOrder readSome eventsOf) {s s' : Stream}
    (hevents : eventsOf s = eventsOf s') {delimiter : Byte} {maxBytes fuel : ℕ}
    (hfuel : min maxBytes (eventsOf s).length < fuel) :
    observed eventsOf (readUntil readSome fuel s delimiter maxBytes) =
      observed eventsOf (readUntil readSome fuel s' delimiter maxBytes) := by
  obtain ⟨t, ht, hrest⟩ := h.untilTakesEvents s delimiter maxBytes fuel hfuel
  obtain ⟨t', ht', hrest'⟩ := h.untilTakesEvents s' delimiter maxBytes fuel (by rwa [← hevents])
  rw [ht, ht', observed, observed, Option.map_some, Option.map_some, hrest, hrest', hevents]

end Results

/-- The output is full with the byte that carries the error, and the end of file stays. -/
example :
    observed ScriptedReadStream.events (readExactly ScriptedReadStream.readSome 4
      [.ofBytes [1], .ofBytes [], .bytesThenError [2, 3] ⟨5, 0⟩, .ofEof] [0, 0, 0]) =
        some (.failure ⟨5, 0⟩ 3, [1, 2, 3], [.eof]) := by
  decide

end CCForge.ByteStreams
