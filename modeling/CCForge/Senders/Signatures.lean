import CCForge.Senders.Denotation

/-!
# The completion signatures cover the completions

A connectable sender is never stuck, and every completion of it has one of its
completion signatures, whatever its callables do and wherever a stop arrives.
-/

namespace CCForge.Senders

open Outcomes (All tick)

variable {α : Type}

theorem sig_ofCall {fn : Fn α} {vs : List (Value α)} {mayThrow : Bool}
    (hthrow : fn.isNothrowInvocable (types vs) = false → mayThrow = true) :
    (Completion.ofCall (fn.invoke vs)).sig ∈
      valueSig (fn.result (types vs)) :: maybeEptr mayThrow := by
  cases hr : fn.invoke vs with
  | ok r =>
    have ht := fn.invoke_type vs r hr
    apply List.mem_cons.mpr
    left
    cases r with
    | none => simp [Completion.ofCall, Completion.sig, valueSig, ← ht]
    | some v => simp [Completion.ofCall, Completion.sig, valueSig, ← ht]
  | error e =>
    have hn : fn.isNothrowInvocable (types vs) = false := by
      by_contra h
      obtain ⟨r, h'⟩ := fn.invoke_nothrow vs (by simpa using h)
      rw [hr] at h'
      cases h'
    simp [Completion.ofCall, maybeEptr, hthrow hn, eptrSig]

theorem runIndices_types {fn : LoopFn ℤ α} {n : ℕ} {i : ℤ} {vs ws : List (Value α)}
    (h : runIndices fn n i vs = .ok ws) : types ws = types vs := by
  induction n generalizing i vs with
  | zero =>
    cases h
    rfl
  | succ n ih =>
    rw [runIndices] at h
    cases hc : fn.invoke i vs with
    | error e =>
      rw [hc] at h
      cases h
    | ok us =>
      rw [hc] at h
      exact (ih h).trans (fn.invoke_type i vs us hc)

theorem runIndices_nothrow {fn : LoopFn ℤ α} {n : ℕ} {i : ℤ} {vs : List (Value α)}
    (h : fn.isNothrowInvocable (types vs) = true) : ∃ ws, runIndices fn n i vs = .ok ws := by
  induction n generalizing i vs with
  | zero => exact ⟨vs, rfl⟩
  | succ n ih =>
    obtain ⟨us, hu⟩ := fn.invoke_nothrow i vs h
    have hus : fn.isNothrowInvocable (types us) = true := by rwa [fn.invoke_type i vs us hu]
    obtain ⟨ws, hw⟩ := ih (i := i + 1) hus
    exact ⟨ws, by rw [runIndices, hu]; exact hw⟩

/-- The exception completion is there if some completion makes the adaptor throw. -/
theorem eptr_mem_maybe {cs : List Sig} {f : Sig → Bool} {s : Sig} (hs : s ∈ cs) (hf : f s = true) :
    eptrSig ∈ maybeEptr (cs.any f) := by
  rw [maybeEptr, if_pos (List.any_eq_true.mpr ⟨s, hs, hf⟩)]
  exact List.mem_singleton_self _

theorem type_makeOptionalValue (vs : List (Value α)) :
    (makeOptionalValue vs).type = optionalValueType (types vs) := by
  match vs with
  | [] => simp [makeOptionalValue, Value.type, optionalValueType, optionalElement]
  | [v] => simp [makeOptionalValue, Value.type, optionalValueType, optionalElement]
  | v :: w :: vs => simp [makeOptionalValue, Value.type, optionalValueType, optionalElement, types]

/-- What a bulk adaptor sends has the signature of what it got, or is a thrown exception. -/
theorem sig_bulk {ι : Type} {fn : LoopFn ι α} {cs : List Sig} {c c' : Completion α}
    (hc : c.sig ∈ cs)
    (h : c'.sig = c.sig ∨ c'.sig = eptrSig ∧ Sig.bulkMayThrow fn c.sig = true) :
    c'.sig ∈ if cs.any (Sig.bulkMayThrow fn) then concatUnique [cs, [eptrSig]] else cs := by
  rcases h with he | ⟨he, ht⟩
  · rw [he]
    split
    · simp [hc]
    · exact hc
  · rw [if_pos (List.any_eq_true.mpr ⟨_, hc, ht⟩), he]
    simp

theorem mem_valueTuples {cs : List Sig} {ts : List CppType} (h : .setValue ts ∈ cs) :
    .tuple ts ∈ valueTuples cs := by
  -- the fold keeps what is in the list and adds what comes
  have hmem : ∀ (tss : List (List CppType)) (list : List CppType),
      (.tuple ts ∈ list ∨ ts ∈ tss) →
      .tuple ts ∈ tss.foldl (fun list ts => typePushUnique list (.tuple ts)) list := by
    intro tss
    induction tss with
    | nil => simp
    | cons us tss ih =>
      intro list hl
      refine ih _ ?_
      have hpush : .tuple ts ∈ list ∨ ts = us → .tuple ts ∈ typePushUnique list (.tuple us) := by
        rintro (hm | rfl) <;> unfold typePushUnique <;> split <;> simp_all
      rcases hl with hm | hm
      · exact .inl (hpush (.inl hm))
      · exact (List.mem_cons.mp hm).imp (fun he => hpush (.inr he)) id
  exact hmem _ _ (.inr (List.mem_filterMap.mpr ⟨_, h, rfl⟩))

theorem variantSigs_mem {cs : List Sig} {ts : List CppType} (h : .setValue ts ∈ cs) :
    Sig.setValue [.variant (valueTuples cs)] ∈ variantSigs cs := by
  rw [variantSigs, if_neg (List.ne_nil_of_mem (mem_valueTuples h))]
  exact List.mem_singleton_self _

/-! ## The receiver of an erased sender -/

section

variable {γ : Type} [DecidableEq γ]

theorem mem_shapePushUnique {list : List γ} {x y : γ} :
    x ∈ shapePushUnique list y ↔ x ∈ list ∨ x = y := by
  unfold shapePushUnique
  split
  · rename_i hy
    constructor
    · exact .inl
    · rintro (hx | rfl)
      · exact hx
      · exact hy
  · rw [List.mem_append, List.mem_singleton]

theorem mem_foldl_shapePushUnique {x : γ} {xs list : List γ} :
    x ∈ xs.foldl shapePushUnique list ↔ x ∈ list ∨ x ∈ xs := by
  induction xs generalizing list with
  | nil => simp
  | cons y xs ih => rw [List.foldl_cons, ih, mem_shapePushUnique, List.mem_cons, or_assoc]

/-- The index of a shape leads back to the shape. -/
theorem shapeIndex_shapeAt {x : γ} {list : List γ} (h : x ∈ list) :
    ∃ i, shapeIndex x list = some i ∧ shapeAt i list = some x := by
  induction list with
  | nil => cases h
  | cons y list ih =>
    by_cases hy : y = x
    · exact ⟨0, by simp [shapeIndex, hy], by rw [shapeAt, hy]⟩
    · obtain ⟨i, hi, ha⟩ := ih ((List.mem_cons.mp h).resolve_left (Ne.symm hy))
      exact ⟨i + 1, by simp [shapeIndex, hy, hi], ha⟩

end

theorem mem_valueList {cs : List Sig} {ts : List CppType} (h : .setValue ts ∈ cs) :
    ts ∈ valueList cs :=
  mem_foldl_shapePushUnique.mpr (.inr (List.mem_filterMap.mpr ⟨_, h, rfl⟩))

theorem mem_errorList {cs : List Sig} {t : CppType} (h : .setError t ∈ cs) : t ∈ errorList cs :=
  mem_foldl_shapePushUnique.mpr (.inr (List.mem_filterMap.mpr ⟨_, h, rfl⟩))

/-- A declared completion reaches the outer receiver as it is. -/
theorem eraseCompletion_of_mem {cs : List Sig} {c : Completion α} (h : c.sig ∈ cs) :
    eraseCompletion cs c = some c := by
  cases c with
  | value vs =>
    obtain ⟨i, hi, ha⟩ := shapeIndex_shapeAt (mem_valueList h)
    simp [eraseCompletion, hi, ha]
  | error e =>
    obtain ⟨i, hi, ha⟩ := shapeIndex_shapeAt (mem_errorList h)
    simp [eraseCompletion, hi, ha]
  | stopped => exact if_pos h

/-- The completions of `m` have signatures of the list. -/
abbrev Covers (cs : List Sig) (m : Outcomes (Result α)) : Prop := All (fun cb => cb.1.sig ∈ cs) m

theorem covers_resume {i : LoopId} {env : Env} :
    Covers ((Scheduler.loop i).completionSignatures env) (resume i env : Outcomes (Result α)) := by
  rw [resume, Scheduler.completionSignatures]
  split
  · refine Outcomes.all_append.mpr ⟨?_, by rintro n r ⟨⟩⟩
    exact Outcomes.all_tick.mpr (Outcomes.all_pure.mpr (by simp [Completion.sig]))
  · exact Outcomes.all_append.mpr
      ⟨Outcomes.all_tick.mpr (Outcomes.all_pure.mpr (by simp [Completion.sig])),
        Outcomes.all_tick.mpr (Outcomes.all_pure.mpr (by simp [Completion.sig]))⟩

variable [Decay α]

theorem sig_storeCompletion (c : Completion α) :
    (storeCompletion c).sig = c.sig ∨ (storeCompletion c).sig = eptrSig := by
  cases c with
  | value vs =>
    cases h : constructAll vs with
    | none => exact .inl (by simp [storeCompletion, h])
    | some e => exact .inr (by simp [storeCompletion, h, eptrSig])
  | error e =>
    cases h : Decay.construct e with
    | none => exact .inl (by simp [storeCompletion, h])
    | some e' => exact .inr (by simp [storeCompletion, h, eptrSig])
  | stopped => exact .inl rfl

theorem mayThrow_of_constructAll {vs : List (Value α)} {e : Value α}
    (h : constructAll vs = some e) : optionalMayThrow α (.setValue (types vs)) = true := by
  rw [optionalMayThrow, Bool.not_eq_true', ← Bool.not_eq_true]
  intro hn
  rw [constructAll_nothrow hn] at h
  cases h

omit [Decay α] in
theorem Covers.erase {cs ds : List Sig} {m : Outcomes (Result α)} (h : Covers cs m)
    (hsub : ∀ c ∈ cs, c ∈ ds) : Covers ds (eraseOutcomes ds m) :=
  h.bind fun cb hcb => by
    rw [eraseCompletion_of_mem (hsub _ hcb)]
    exact Outcomes.all_tick.mpr (Outcomes.all_pure.mpr (hsub _ hcb))

theorem Covers.through {r : Receiver α} {cs ds : List Sig} {m : Outcomes (Result α)}
    (h : Covers cs m) (hr : ∀ c : Completion α, c.sig ∈ cs → (r.complete c).sig ∈ ds) :
    Covers ds (through r m) :=
  h.bind fun cb hcb => Outcomes.all_tick.mpr (Outcomes.all_pure.mpr (hr cb.1 hcb))

theorem covers_forward {cs : List Sig} {m : Outcomes (Result α)} (h : Covers cs m) :
    Covers cs (through .forward m) :=
  h.through fun c hc => by cases c <;> exact hc

theorem Scheduler.covers (sch : Scheduler) (env : Env) (b : Resource) :
    Covers (sch.completionSignatures env) (sch.outcomes env b : Outcomes (Result α)) := by
  induction sch generalizing env with
  | inline => exact Outcomes.all_tick.mpr (Outcomes.all_pure.mpr (by
      simp [Completion.sig, Scheduler.completionSignatures]))
  | loop i => exact Outcomes.all_tick.mpr covers_resume
  | unstoppable s ih => exact Outcomes.all_tick.mpr (covers_forward (ih _))

theorem mem_nonValueSigs {cs : List Sig} {s : Sig} :
    s ∈ nonValueSigs cs ↔ s ∈ cs ∧ s.isNonValue = true := by
  simp [nonValueSigs]

theorem covers_continuesOn {sch : Scheduler} {env : Env} {cs : List Sig}
    {m : Outcomes (Result α)} (h : Covers cs m) :
    Covers (continuesOnSigs cs (sch.completionSignatures env)) (continuesOnOutcomes sch env m) := by
  refine h.bind fun cb hcb => Outcomes.all_tick.mpr ((sch.covers env cb.2).through ?_)
  intro c hc
  -- a value of the schedule operation lets the stored completion out
  cases c with
  | value vs =>
    rcases sig_storeCompletion cb.1 with he | he <;>
      simp [Receiver.complete, he, continuesOnSigs, hcb]
  | error e =>
    simp only [Receiver.complete, Completion.sig] at hc ⊢
    simp [continuesOnSigs, mem_nonValueSigs, hc, Sig.isNonValue]
  | stopped =>
    simp only [Receiver.complete, Completion.sig] at hc ⊢
    simp [continuesOnSigs, mem_nonValueSigs, hc, Sig.isNonValue]

theorem covers_startsOn {sch : Scheduler} {env : Env} {b : Resource} {cs : List Sig}
    {m : Resource → Outcomes (Result α)} (h : ∀ b', Covers cs (m b')) :
    Covers (startsOnSigs cs (sch.completionSignatures env)) (startsOnOutcomes sch env b m) := by
  refine (sch.covers env b).bind fun cb hcb => Outcomes.all_tick.mpr ?_
  obtain ⟨c, b'⟩ := cb
  cases c with
  | value vs => exact (covers_forward (h b')).mono fun cb hcb => by simp [startsOnSigs, hcb]
  | error e => exact Outcomes.all_pure.mpr (by
      simpa [startsOnSigs, mem_nonValueSigs, Completion.sig, Sig.isNonValue] using .inr hcb)
  | stopped => exact Outcomes.all_pure.mpr (by
      simpa [startsOnSigs, mem_nonValueSigs, Completion.sig, Sig.isNonValue] using .inr hcb)

namespace Sender

theorem covers_readEnv {q : Query} {env : Env} {b : Resource}
    (h : (q.ask env : Option (Value α)).isSome) :
    Covers ((readEnv q : Sender α).completionSignatures env)
      ((readEnv q : Sender α).outcomes env b) := by
  obtain ⟨v, hv⟩ := Option.isSome_iff_exists.mp h
  simp only [outcomes, completionSignatures, hv, Option.elim]
  exact Outcomes.all_tick.mpr (Outcomes.all_pure.mpr (by simp [Completion.sig]))

theorem sig_thenReceiver {fn : Fn α} {cs : List Sig} {c : Completion α} (hc : c.sig ∈ cs) :
    ((Receiver.thenReceiver fn).complete c).sig ∈
      appendUnique (appendUnique [] (cs.map (Sig.thenTransform fn)))
        (maybeEptr (cs.any (Sig.thenMayThrow fn))) := by
  simp only [mem_appendUnique, List.not_mem_nil, false_or, List.mem_map]
  cases c with
  | value vs =>
    -- a call that is not announced as nothrow puts the exception into the list
    have hthrow : fn.isNothrowInvocable (types vs) = false → cs.any (Sig.thenMayThrow fn) = true :=
      fun hn => List.any_eq_true.mpr ⟨_, hc, by simp [Sig.thenMayThrow, Completion.sig, hn]⟩
    rcases List.mem_cons.mp (sig_ofCall hthrow) with he | he
    · exact .inl ⟨_, hc, he.symm⟩
    · exact .inr he
  | error e => exact .inl ⟨_, hc, rfl⟩
  | stopped => exact .inl ⟨_, hc, rfl⟩

theorem sig_recvError {fn : Fn α} {cs : List Sig} {c : Completion α} (hc : c.sig ∈ cs) :
    ((Receiver.recvError fn).complete c).sig ∈
      concatUnique [cs.map (Sig.uponErrorTransform fn),
        maybeEptr (cs.any (Sig.uponErrorMayThrow fn))] := by
  simp only [mem_concatUnique, List.mem_cons, List.not_mem_nil, or_false, exists_eq_or_imp,
    exists_eq_left, List.mem_map]
  cases c with
  | value vs => exact .inl ⟨_, hc, rfl⟩
  | error e =>
    -- errors that the callable does not take go on unchanged
    by_cases hi : fn.isInvocable [e.type] = true
    · have hthrow : fn.isNothrowInvocable (types [e]) = false →
          cs.any (Sig.uponErrorMayThrow fn) = true := fun hn =>
        List.any_eq_true.mpr ⟨_, hc, by
          simpa [Sig.uponErrorMayThrow, Completion.sig, hi] using hn⟩
      rw [Receiver.complete, if_pos hi]
      rcases List.mem_cons.mp (sig_ofCall hthrow) with he | he
      · exact .inl ⟨_, hc, by simpa [Sig.uponErrorTransform, Completion.sig, hi] using he.symm⟩
      · exact .inr he
    · rw [Receiver.complete, if_neg hi]
      exact .inl ⟨_, hc, by simp [Sig.uponErrorTransform, Completion.sig, hi]⟩
  | stopped => exact .inl ⟨_, hc, rfl⟩

theorem sig_recvStopped {fn : Fn α} {cs : List Sig} {c : Completion α} (hc : c.sig ∈ cs) :
    ((Receiver.recvStopped fn).complete c).sig ∈
      concatUnique [cs.map (Sig.uponStoppedTransform fn),
        maybeEptr (cs.any (Sig.uponStoppedMayThrow fn))] := by
  simp only [mem_concatUnique, List.mem_cons, List.not_mem_nil, or_false, exists_eq_or_imp,
    exists_eq_left, List.mem_map]
  cases c with
  | value vs => exact .inl ⟨_, hc, rfl⟩
  | error e => exact .inl ⟨_, hc, rfl⟩
  | stopped =>
    have hthrow : fn.isNothrowInvocable (types ([] : List (Value α))) = false →
        cs.any (Sig.uponStoppedMayThrow fn) = true := fun hn =>
      List.any_eq_true.mpr ⟨_, hc, by simpa [Sig.uponStoppedMayThrow, Completion.sig] using hn⟩
    rcases List.mem_cons.mp (sig_ofCall hthrow) with he | he
    · rw [types_nil] at he
      exact .inl ⟨_, hc, he.symm⟩
    · exact .inr he

theorem sig_bulkRecv (shape : ℤ) (fn : LoopFn ℤ α) (c : Completion α) :
    ((Receiver.bulk shape fn).complete c).sig = c.sig ∨
      ((Receiver.bulk shape fn).complete c).sig = eptrSig ∧
        Sig.bulkMayThrow fn c.sig = true := by
  cases c with
  | value vs =>
    cases hr : runIndices fn shape.toNat 0 vs with
    | ok ws =>
      left
      simp [Receiver.complete, hr, Completion.sig, runIndices_types hr]
    | error e =>
      right
      refine ⟨by simp [Receiver.complete, hr, eptrSig], ?_⟩
      rw [Completion.sig, Sig.bulkMayThrow, Bool.not_eq_true', ← Bool.not_eq_true]
      intro hn
      obtain ⟨ws, hw⟩ := runIndices_nothrow (n := shape.toNat) (i := 0) hn
      rw [hr] at hw
      cases hw
  | error e => exact .inl rfl
  | stopped => exact .inl rfl

theorem sig_bulkChunkedRecv (shape : ℤ) (fn : LoopFn (ℤ × ℤ) α) (c : Completion α) :
    ((Receiver.bulkChunked shape fn).complete c).sig = c.sig ∨
      ((Receiver.bulkChunked shape fn).complete c).sig = eptrSig ∧
        Sig.bulkMayThrow fn c.sig = true := by
  cases c with
  | value vs =>
    by_cases h0 : 0 < shape
    · cases hr : fn.invoke (0, shape) vs with
      | ok ws =>
        left
        simp [Receiver.complete, h0, hr, Completion.sig, fn.invoke_type _ _ _ hr]
      | error e =>
        right
        refine ⟨by simp [Receiver.complete, h0, hr, eptrSig], ?_⟩
        rw [Completion.sig, Sig.bulkMayThrow, Bool.not_eq_true', ← Bool.not_eq_true]
        intro hn
        obtain ⟨ws, hw⟩ := fn.invoke_nothrow (0, shape) vs hn
        rw [hr] at hw
        cases hw
    · exact .inl (by simp [Receiver.complete, h0])
  | error e => exact .inl rfl
  | stopped => exact .inl rfl

theorem sig_intoVariant {cs : List Sig} {c : Completion α} (hc : c.sig ∈ cs) :
    ((Receiver.intoVariant (valueTuples cs)).complete c).sig ∈
      concatUnique [variantSigs cs, nonValueSigs cs, maybeEptr (cs.any (optionalMayThrow α))] := by
  simp only [mem_concatUnique, List.mem_cons, List.not_mem_nil, or_false, exists_eq_or_imp,
    exists_eq_left]
  cases c with
  | value vs =>
    cases ht : constructAll vs with
    | none =>
      left
      simpa [Receiver.complete, ht, Completion.sig, Value.type] using variantSigs_mem hc
    | some e =>
      right
      right
      simpa [Receiver.complete, ht, eptrSig] using
        eptr_mem_maybe (f := optionalMayThrow α) hc (mayThrow_of_constructAll ht)
  | error e => exact .inr (.inl (mem_nonValueSigs.mpr ⟨hc, rfl⟩))
  | stopped => exact .inr (.inl (mem_nonValueSigs.mpr ⟨hc, rfl⟩))

theorem sig_optional {cs : List Sig} {c : Completion α} (hc : c.sig ∈ cs) :
    ((Receiver.optional (firstOptionalElement cs)).complete c).sig ∈
      concatUnique (cs.map optionalSig ++
        [if .setStopped ∈ cs then [.setValue [.optional (firstOptionalElement cs)]] else [],
          maybeEptr (cs.any (optionalMayThrow α))]) := by
  rw [mem_concatUnique]
  cases c with
  | value vs =>
    cases ht : constructAll vs with
    | none =>
      refine ⟨optionalSig (.setValue (types vs)),
        List.mem_append.mpr (.inl (List.mem_map.mpr ⟨_, hc, rfl⟩)), ?_⟩
      simp [Receiver.complete, ht, Completion.sig, type_makeOptionalValue, optionalSig]
    | some e =>
      refine ⟨maybeEptr (cs.any (optionalMayThrow α)), by simp, ?_⟩
      simpa [Receiver.complete, ht, eptrSig] using
        eptr_mem_maybe (f := optionalMayThrow α) hc (mayThrow_of_constructAll ht)
  | error e =>
    exact ⟨_, List.mem_append.mpr (.inl (List.mem_map.mpr ⟨_, hc, rfl⟩)), by
      simp [Receiver.complete, Completion.sig, optionalSig]⟩
  | stopped =>
    refine ⟨[.setValue [.optional (firstOptionalElement cs)]], ?_, by
      simp [Receiver.complete, Completion.sig, Value.type]⟩
    rw [if_pos (show Sig.setStopped ∈ cs from hc)]
    simp

theorem sig_errorRecv {cs : List Sig} {e : Value α} {c : Completion α} (hc : c.sig ∈ cs) :
    ((Receiver.error e).complete c).sig ∈
      concatUnique (cs.map (fun c => if c = .setStopped then [] else [c]) ++
        [if .setStopped ∈ cs then [.setError e.type] else []]) := by
  rw [mem_concatUnique]
  cases c with
  | value vs =>
    exact ⟨_, List.mem_append.mpr (.inl (List.mem_map.mpr ⟨_, hc, rfl⟩)), by
      simp [Receiver.complete, Completion.sig]⟩
  | error e' =>
    exact ⟨_, List.mem_append.mpr (.inl (List.mem_map.mpr ⟨_, hc, rfl⟩)), by
      simp [Receiver.complete, Completion.sig]⟩
  | stopped =>
    refine ⟨[.setError e.type], ?_, by simp [Receiver.complete, Completion.sig]⟩
    rw [if_pos (show Sig.setStopped ∈ cs from hc)]
    simp

theorem covers_let {which : Tag} {s : Sender α} {declared : List CppType → Env → List Sig}
    {throws : List (Value α) → Option (Value α)} {inner : List (Value α) → Sender α} {env : Env}
    {b : Resource} (ih : Covers (s.completionSignatures env) (s.outcomes env b))
    (hinner : ∀ vs, (∃ c ∈ s.completionSignatures env, which.argumentTypes c = some (types vs)) →
      throws vs = none → ∀ b', Covers (declared (types vs) ((makeLetEnv which s).join env))
        ((inner vs).outcomes ((makeLetEnv which s).join env) b')) :
    Covers ((letSender which s declared throws inner).completionSignatures env)
      ((letSender which s declared throws inner).outcomes env b) := by
  refine Outcomes.all_tick.mpr (ih.bind fun cb hcb => Outcomes.all_tick.mpr ?_)
  obtain ⟨c, b'⟩ := cb
  have hmem : ∀ sig cs', cs' ∈ (s.completionSignatures env).map (letSig which fun ts =>
        declared ts ((makeLetEnv which s).join env)) ++
      [maybeEptr ((s.completionSignatures env).any fun c => (which.argumentTypes c).isSome)] →
      sig ∈ cs' → sig ∈ (letSender which s declared throws inner).completionSignatures env :=
    fun sig cs' hcs hsig => mem_concatUnique.mpr ⟨cs', hcs, hsig⟩
  have hargs := which.argumentTypes_sig c
  cases ha : which.arguments c with
  | none =>
    rw [ha] at hargs
    rw [letOutcomes_forward ha]
    refine Outcomes.all_pure.mpr (hmem _ [c.sig]
      (List.mem_append.mpr (.inl (List.mem_map.mpr ⟨_, hcb, ?_⟩))) (List.mem_singleton_self _))
    simp [letSig, hargs]
  | some vs =>
    rw [ha] at hargs
    -- the stored values or the callable may throw before the inner sender is there
    cases ht : (constructAll vs).or (throws vs) with
    | some e =>
      rw [letOutcomes_throw ha ht]
      refine Outcomes.all_pure.mpr (hmem _ _ (List.mem_append.mpr (.inr
        (List.mem_singleton_self _))) ?_)
      simpa [eptrSig] using eptr_mem_maybe (f := fun c => (which.argumentTypes c).isSome) hcb
        (by rw [hargs]; rfl)
    | none =>
      rw [letOutcomes_inner ha ht]
      obtain ⟨_, hthrow⟩ := Option.or_eq_none_iff.mp ht
      refine (covers_forward (hinner vs ⟨_, hcb, hargs⟩ hthrow b')).mono fun cb hcb' =>
        hmem _ (declared (types vs) ((makeLetEnv which s).join env))
          (List.mem_append.mpr (.inl (List.mem_map.mpr ⟨_, hcb, ?_⟩))) hcb'
      simp [letSig, hargs]

/-- Every completion has one of the completion signatures. -/
theorem outcomes_covered (s : Sender α) (env : Env) (b : Resource) (h : s.Connectable env) :
    Covers (s.completionSignatures env) (s.outcomes env b) := by
  induction s generalizing env b with
  | just vs =>
    exact Outcomes.all_tick.mpr (Outcomes.all_pure.mpr (List.mem_singleton_self _))
  | justError e =>
    exact Outcomes.all_tick.mpr (Outcomes.all_pure.mpr (List.mem_singleton_self _))
  | justStopped =>
    exact Outcomes.all_tick.mpr (Outcomes.all_pure.mpr (List.mem_singleton_self _))
  | readEnv q => exact covers_readEnv h
  | runLoop i => exact Scheduler.covers _ _ _
  | inline => exact Scheduler.covers _ _ _
  | thenSender s fn ih =>
    exact Outcomes.all_tick.mpr ((ih env b h.1).through fun c hc => sig_thenReceiver hc)
  | uponError s fn ih =>
    exact Outcomes.all_tick.mpr ((ih env b h.1).through fun c hc => sig_recvError hc)
  | uponStopped s fn ih =>
    exact Outcomes.all_tick.mpr ((ih env b h.1).through fun c hc => sig_recvStopped hc)
  | letSender which s declared throws inner ih ihInner =>
    refine covers_let (ih env b h.1) fun vs hvs ht b' => ?_
    obtain ⟨hcon, heq⟩ := h.2 vs hvs ht
    exact heq ▸ ihInner vs _ b' hcon
  | bulk s shape fn ih =>
    exact Outcomes.all_tick.mpr ((ih env b h).through fun c hc =>
      sig_bulk hc (sig_bulkRecv shape fn c))
  | bulkChunked s shape fn ih =>
    exact Outcomes.all_tick.mpr ((ih env b h).through fun c hc =>
      sig_bulk hc (sig_bulkChunkedRecv shape fn c))
  | intoVariant s ih =>
    exact Outcomes.all_tick.mpr ((ih env b h).through fun c hc => sig_intoVariant hc)
  | stoppedAsOptional s ih =>
    exact Outcomes.all_tick.mpr ((ih env b h.1).through fun c hc => sig_optional hc)
  | stoppedAsError s e ih =>
    exact Outcomes.all_tick.mpr ((ih env b h).through fun c hc => sig_errorRecv hc)
  | writeEnv s overlay ih => exact Outcomes.all_tick.mpr (covers_forward (ih _ b h))
  | scheduleFrom s ih => exact Outcomes.all_tick.mpr (ih env b h)
  | continuesOn s sch ih => exact Outcomes.all_tick.mpr (covers_continuesOn (ih env b h.1))
  | startsOn sch s ih => exact Outcomes.all_tick.mpr (covers_startsOn fun b' => ih _ b' h)
  | on sch s ih =>
    obtain ⟨orig, ho⟩ := Option.isSome_iff_exists.mp h.1
    simp only [outcomes, completionSignatures, ho, Option.elim]
    exact Outcomes.all_tick.mpr (Outcomes.all_tick.mpr (covers_continuesOn
      (Outcomes.all_tick.mpr (Outcomes.all_tick.mpr (covers_startsOn fun b' => ih _ b' h.2.1)))))
  | onClosure s adapted _ ih =>
    obtain ⟨orig, ho⟩ := Option.isSome_iff_exists.mp h.1
    simp only [outcomes, completionSignatures, ho, Option.elim]
    exact Outcomes.all_tick.mpr (Outcomes.all_tick.mpr (covers_continuesOn
      (Outcomes.all_tick.mpr (ih env b h.2.1))))
  | affine s ih =>
    obtain ⟨orig, ho⟩ := Option.isSome_iff_exists.mp h.1
    simp only [outcomes, completionSignatures, ho, Option.elim]
    exact Outcomes.all_tick.mpr (Outcomes.all_tick.mpr (covers_continuesOn
      (Outcomes.all_tick.mpr (ih env b h.2.1))))
  | erased declared s ih => exact Outcomes.all_tick.mpr ((ih _ b h.1).erase h.2)

end Sender

end CCForge.Senders
