import CCForge.IoUring.Model
import CCForge.Lib.Run
import Mathlib.Data.List.Count
import Mathlib.Algebra.Group.Nat.Defs

/-!
# The ring of a context and the kernel below it

The submission queue is a bounded FIFO. The kernel consumes its entries in order, any number in a
call of `io_uring_enter`, and posts one completion for each entry, at any later time and in any order.
-/

namespace CCForge.UringContext

/-- The address of an operation. -/
abbrev Address := ℕ

abbrev ErrorCode := ℕ

def ENOENT : ErrorCode := 2
def EINTR : ErrorCode := 4
def EAGAIN : ErrorCode := 11
def EBUSY : ErrorCode := 16
def EALREADY : ErrorCode := 114
def ENOBUFS : ErrorCode := 105
def ECANCELED : ErrorCode := 125

/-- The `user_data`: the address of the context, that of an operation, and that of an operation with
`cancel_tag`. The objects are aligned, so that no two of these are the same number. -/
inductive UserData where
  | wakeup
  | target (op : Address)
  | cancel (op : Address)
  deriving DecidableEq, Repr

/-- What `submit_operation` stores for the submission. -/
structure Request where
  opcode : ℕ := 0
  fd : ℤ := -1
  address : ℕ := 0
  length : ℕ := 0
  deriving DecidableEq, Repr

/-- What the kernel is asked for. -/
inductive Command where
  | nop
  | rw (request : Request)
  | asyncCancel (target : UserData)
  deriving DecidableEq, Repr

structure Sqe where
  command : Command := .nop
  userData : UserData := .wakeup
  deriving DecidableEq, Repr, Inhabited

structure Cqe where
  userData : UserData
  res : ℤ
  deriving DecidableEq, Repr

/-- `entries` is the size of the submission queue, `sq` what is published and not consumed, `held`
what the kernel has still to complete, and `cq` what is posted and not drained. -/
structure Kernel where
  entries : ℕ
  sq : List Sqe := []
  held : List UserData := []
  cq : List Cqe := []
  deriving DecidableEq, Repr

/-- What the calls of `io_uring_enter` in a flush come to: all entries are consumed, or the first `n`
are and the flush reports an error. -/
inductive Entered where
  | all
  | some (n : ℕ) (error : ErrorCode)
  deriving DecidableEq, Repr

namespace Kernel

/-- `try_publish`. -/
def tryPublish (k : Kernel) (sqe : Sqe) : Kernel × Bool :=
  if k.sq.length ≥ k.entries then (k, false) else ({ k with sq := k.sq ++ [sqe] }, true)

/-- `publish_nop`. -/
def publishNop (k : Kernel) (userData : UserData) : Kernel × Bool :=
  k.tryPublish { command := .nop, userData := userData }

/-- `publish_rw`. -/
def publishRw (k : Kernel) (request : Request) (userData : UserData) : Kernel × Bool :=
  k.tryPublish { command := .rw request, userData := userData }

/-- `publish_cancel`. -/
def publishCancel (k : Kernel) (target cancel : UserData) : Kernel × Bool :=
  k.tryPublish { command := .asyncCancel target, userData := cancel }

/-- `try_retract_last_unconsumed`. -/
def tryRetractLastUnconsumed (k : Kernel) : Kernel × Bool :=
  if k.sq = [] then (k, false) else ({ k with sq := k.sq.dropLast }, true)

/-- The kernel consumes the first `n` entries. -/
def consume (k : Kernel) (n : ℕ) : Kernel :=
  { k with sq := k.sq.drop n, held := k.held ++ (k.sq.take n).map Sqe.userData }

/-- `flush_published`. Without entries, it does not enter the kernel. -/
def flushPublished (k : Kernel) (e : Entered) : Kernel × Option ErrorCode :=
  if k.sq = [] then (k, none)
  else
    match e with
    | .all => (k.consume k.sq.length, none)
    | .some n error => (k.consume n, some error)

/-- The kernel posts a completion for an entry that it holds. -/
def post (k : Kernel) (userData : UserData) (res : ℤ) : Option Kernel :=
  if userData ∈ k.held then
    some { k with held := k.held.erase userData, cq := k.cq ++ [⟨userData, res⟩] }
  else none

/-- The entries and completions with this `user_data`. -/
def outstanding (k : Kernel) (userData : UserData) : ℕ :=
  k.sq.countP (fun sqe => sqe.userData = userData) + k.held.count userData +
    k.cq.countP (fun cqe => cqe.userData = userData)

/-! ## What the calls do to the entries -/

variable {k k' : Kernel} {sqe : Sqe} {u : UserData}

theorem tryPublish_cases (k : Kernel) (sqe : Sqe) :
    (k.tryPublish sqe = (k, false) ∧ k.entries ≤ k.sq.length) ∨
    (k.tryPublish sqe = ({ k with sq := k.sq ++ [sqe] }, true) ∧ k.sq.length < k.entries) := by
  unfold tryPublish
  split
  · next hfull => exact .inl ⟨rfl, hfull⟩
  · next hroom => exact .inr ⟨rfl, by omega⟩

theorem tryRetract_cases (k : Kernel) : (k.tryRetractLastUnconsumed = (k, false) ∧ k.sq = []) ∨
    (k.tryRetractLastUnconsumed = ({ k with sq := k.sq.dropLast }, true) ∧ k.sq ≠ []) := by
  unfold tryRetractLastUnconsumed
  split
  · next hnil => exact .inl ⟨rfl, hnil⟩
  · next hne => exact .inr ⟨rfl, hne⟩

theorem outstanding_publish (k : Kernel) (sqe : Sqe) (u : UserData) :
    outstanding { k with sq := k.sq ++ [sqe] } u =
      k.outstanding u + if u = sqe.userData then 1 else 0 := by
  simp only [outstanding, List.countP_append, List.countP_singleton, decide_eq_true_eq]
  by_cases he : u = sqe.userData
  · subst he
    simp only [if_true]
    omega
  · rw [if_neg fun heq => he heq.symm, if_neg he]
    omega

theorem outstanding_consume (k : Kernel) (n : ℕ) (u : UserData) :
    (k.consume n).outstanding u = k.outstanding u := by
  have hsplit : k.sq.countP (fun sqe => sqe.userData = u) =
      (k.sq.take n).countP (fun sqe => sqe.userData = u) +
        (k.sq.drop n).countP (fun sqe => sqe.userData = u) := by
    rw [← List.countP_append, List.take_append_drop]
  have hheld : ((k.sq.take n).map Sqe.userData).count u =
      (k.sq.take n).countP (fun sqe => sqe.userData = u) := by
    rw [List.count, List.countP_map]
    exact List.countP_congr fun sqe _ => by simp
  simp only [outstanding, consume, List.count_append, hsplit, hheld]
  omega

theorem flushPublished_cases (k : Kernel) (e : Entered) :
    ∃ n, (k.flushPublished e).1 = k.consume n := by
  unfold flushPublished
  split
  · next hnil => exact ⟨0, by simp [consume]⟩
  · cases e with
    | all => exact ⟨_, rfl⟩
    | some n error => exact ⟨n, rfl⟩

/-- A flush leaves every entry with the kernel. -/
theorem outstanding_flushPublished (k : Kernel) (e : Entered) (u : UserData) :
    (k.flushPublished e).1.outstanding u = k.outstanding u := by
  obtain ⟨n, hn⟩ := k.flushPublished_cases e
  rw [hn, outstanding_consume]

/-- The entry that is retracted is the one that was published last, and it was not consumed. -/
theorem outstanding_retract {n : ℕ} {sq : List Sqe} (hsq : k.sq = sq ++ [sqe])
    (hleft : (k.consume n).sq ≠ []) (u : UserData) :
    outstanding { k.consume n with sq := (k.consume n).sq.dropLast } u =
      outstanding { k with sq := sq } u := by
  have hle : n ≤ sq.length := by
    by_contra hlt
    refine hleft (List.drop_of_length_le ?_)
    rw [hsq, List.length_append, List.length_singleton]
    omega
  have hconsume := outstanding_consume { k with sq := sq } n u
  rw [← hconsume]
  simp only [consume, hsq, List.drop_append_of_le_length hle, List.dropLast_concat,
    List.take_append_of_le_length hle]

theorem outstanding_post {res : ℤ} (h : k.post u res = some k') (v : UserData) :
    k'.outstanding v = k.outstanding v := by
  unfold post at h
  split at h
  · next hheld =>
    cases h
    simp only [outstanding, List.countP_append, List.countP_singleton, decide_eq_true_eq]
    by_cases he : v = u
    · subst he
      have hpos := List.count_pos_iff.mpr hheld
      rw [List.count_erase_self, if_pos rfl]
      omega
    · rw [List.count_erase_of_ne he, if_neg fun heq => he heq.symm, Nat.add_zero]
  · cases h

/-- A completion is taken from the queue. -/
theorem outstanding_take {cqe : Cqe} {cq : List Cqe} (hcq : k.cq = cqe :: cq) (u : UserData) :
    outstanding { k with cq := cq } u + (if cqe.userData = u then 1 else 0) = k.outstanding u := by
  simp only [outstanding, hcq, List.countP_cons, decide_eq_true_eq]
  omega

/-! ## The queues are those of the ring -/

/-- The queues, as the ring keeps them. -/
def fifo (k : Kernel) : IoUring.Fifo Sqe Cqe := { waiting := k.sq, undrained := k.cq }

variable {cqEntries : ℕ}

theorem tryPublish_fifo (hle : k.sq.length ≤ k.entries) :
    IoUring.Fifo.step k.entries cqEntries k.fifo (.publish (fun _ => sqe) (k.tryPublish sqe).2) =
      some (k.tryPublish sqe).1.fifo := by
  rcases k.tryPublish_cases sqe with ⟨heq, hfull⟩ | ⟨heq, hroom⟩
  · rw [heq]
    simp [IoUring.Fifo.step, fifo, Nat.le_antisymm hle hfull]
  · rw [heq]
    simp [IoUring.Fifo.step, fifo, hroom.ne]

theorem length_tryPublish (hle : k.sq.length ≤ k.entries) :
    (k.tryPublish sqe).1.sq.length ≤ (k.tryPublish sqe).1.entries := by
  rcases k.tryPublish_cases sqe with ⟨heq, -⟩ | ⟨heq, hroom⟩
  · rw [heq]
    exact hle
  · rw [heq]
    simp only [List.length_append, List.length_singleton]
    exact hroom

theorem tryRetract_fifo : IoUring.Fifo.step k.entries cqEntries k.fifo
    (.retract k.tryRetractLastUnconsumed.2) = some k.tryRetractLastUnconsumed.1.fifo := by
  rcases k.tryRetract_cases with ⟨heq, hnil⟩ | ⟨heq, hne⟩
  · rw [heq]
    simp [IoUring.Fifo.step, fifo, hnil]
  · rw [heq]
    simp [IoUring.Fifo.step, fifo, hne]

/-- The entries are consumed from the front, one after the other. -/
theorem consume_fifo (k : Kernel) (n : ℕ) :
    CCForge.run (IoUring.Fifo.step k.entries cqEntries) k.fifo ((k.sq.take n).map .consume) =
      some (k.consume n).fifo := by
  suffices hrun : ∀ (sq : List Sqe) (m : ℕ), CCForge.run (IoUring.Fifo.step k.entries cqEntries)
      { waiting := sq, undrained := k.cq } ((sq.take m).map .consume) =
      some { waiting := sq.drop m, undrained := k.cq } from hrun k.sq n
  intro sq m
  induction sq generalizing m with
  | nil => simp [CCForge.run]
  | cons sqe rest ih =>
    cases m with
    | zero => rfl
    | succ m =>
      simp only [List.take_succ_cons, List.map_cons, CCForge.run, List.drop_succ_cons]
      rw [← ih m]
      simp [IoUring.Fifo.step]

theorem post_fifo {res : ℤ} (h : k.post u res = some k') (hroom : k.cq.length < cqEntries) :
    IoUring.Fifo.step k.entries cqEntries k.fifo (.post ⟨u, res⟩) = some k'.fifo := by
  unfold post at h
  split at h
  · cases h
    simp [IoUring.Fifo.step, fifo, hroom]
  · cases h

end Kernel

end CCForge.UringContext
