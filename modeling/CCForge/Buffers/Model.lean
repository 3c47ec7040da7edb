import Mathlib.Data.Nat.Notation
import Mathlib.Data.List.Range
import Mathlib.Algebra.Group.Nat.Defs

/-!
# buffer_copy

A buffer is a range of the memory. `buffer_copy` copies a sequence of buffers to another one, where
the boundaries need not match.
-/

namespace CCForge.Buffers

/-- What each address holds. -/
abbrev Memory (Byte : Type) := ℕ → Byte

/-- `mutable_buffer` and `const_buffer`, for a `std::size_t` of `w` bits. A buffer with bytes lies in
the address space and does not begin at the null pointer. -/
structure Buffer (w : ℕ) where
  data : ℕ
  size : ℕ
  inSpace : size ≠ 0 → 0 < data ∧ data + size ≤ 2 ^ w
  deriving DecidableEq, Repr

variable {w : ℕ} {Byte : Type}

namespace Buffer

/-- The default constructor. -/
def null : Buffer w := ⟨0, 0, fun h => absurd rfl h⟩

def empty (b : Buffer w) : Bool := b.size == 0

/-- `{data() + copied, size() - copied}`. -/
def advance (b : Buffer w) (copied : ℕ) : Buffer w where
  data := b.data + copied
  size := b.size - copied
  inSpace h := by
    have hspace := b.inSpace (by omega)
    omega

/-- The addresses of the bytes. -/
def addresses (b : Buffer w) : List ℕ := List.range' b.data b.size

end Buffer

/-- `std::memmove`: the source is read before the destination is written. -/
def memmove (m : Memory Byte) (dest source count : ℕ) : Memory Byte := fun a =>
  if dest ≤ a ∧ a < dest + count then m (source + (a - dest)) else m a

/-- `buffer_copy` for two buffers. -/
def copyOne (m : Memory Byte) (dest source : Buffer w) : ℕ × Memory Byte :=
  let count := min dest.size source.size
  (count, if count ≠ 0 then memmove m dest.data source.data count else m)

/-- `dest`, `have_dest` and what is left from `dest_it` on, and the same of the sources. -/
structure Cursor (w : ℕ) where
  current : Buffer w
  haveCurrent : Bool
  rest : List (Buffer w)
  deriving DecidableEq, Repr

/-- An inner loop, from a cursor with the given fields. There is no cursor where the loop returns. -/
def refill (current : Buffer w) (haveCurrent : Bool) : List (Buffer w) → Option (Cursor w)
  | [] => if ¬haveCurrent ∨ current.empty then none else some ⟨current, haveCurrent, []⟩
  | b :: rest =>
    if ¬haveCurrent ∨ current.empty then refill b true rest
    else some ⟨current, haveCurrent, b :: rest⟩

def Cursor.refill (c : Cursor w) : Option (Cursor w) :=
  Buffers.refill c.current c.haveCurrent c.rest

/-- The outer loop, with at most `fuel` rounds. -/
def copyLoop : ℕ → Cursor w → Cursor w → ℕ → Memory Byte → Option (ℕ × Memory Byte)
  | 0, _, _, _, _ => none
  | fuel + 1, dests, sources, total, m =>
    match dests.refill with
    | none => some (total, m)
    | some dests =>
      match sources.refill with
      | none => some (total, m)
      | some sources =>
        let (copied, m) := copyOne m dests.current sources.current
        copyLoop fuel { dests with current := dests.current.advance copied }
          { sources with current := sources.current.advance copied } ((total + copied) % 2 ^ w) m

def bufferCopy (fuel : ℕ) (m : Memory Byte) (dests sources : List (Buffer w)) :
    Option (ℕ × Memory Byte) :=
  copyLoop fuel ⟨.null, false, dests⟩ ⟨.null, false, sources⟩ 0 m

/-! ## The concatenation -/

/-- The addresses of the concatenation. -/
def addresses (buffers : List (Buffer w)) : List ℕ := buffers.flatMap Buffer.addresses

/-- The bytes of the concatenation. -/
def contents (m : Memory Byte) (buffers : List (Buffer w)) : List Byte := (addresses buffers).map m

end CCForge.Buffers
