import RegularArithmetic.Failure
import RegularArithmetic.Store.Pairing

/-!
Interned values: each distinct value is stored once and known by its number. Numbers are handed
out as 1, 2, 3, …, so that 0 stands for nothing. The values that fall into one bucket are linked
to each other, from the oldest to the newest.
-/

set_option autoImplicit false

namespace RegularArithmetic.Store

universe u

/-- A stored value and the number linked after its own in its bucket, 0 if it is the last one. -/
structure Cell (α : Type u) where
  value : α
  next : Nat

/-- The cells in the order of their numbers, and for each of `2 ^ bits` buckets the number linked
first, 0 if the bucket is empty. -/
structure Interner (α : Type u) where
  bits : Nat
  cells : Array (Cell α)
  heads : Array Nat

namespace Interner

variable {α : Type u}

/-- No value is stored; the bits beyond the twentieth add no buckets. -/
def empty (bits : Nat) : Interner α :=
  let bits := min bits 20
  ⟨bits, #[], Array.replicate (Nat.pow 2 bits) 0⟩

/-- No value is stored, unless room is asked for more than `2 ^ 31` values. -/
def empty? (bits : Nat) : Except Fault (Interner α) :=
  if bits ≤ 31 then .ok (empty bits) else .error .oversized

/-- The number of stored values. -/
def size (t : Interner α) : Nat :=
  t.cells.size

def cell? (t : Interner α) : Nat → Option (Cell α)
  | 0 => none
  | i + 1 => t.cells[i]?

/-- The value with number `i`. -/
def get? (t : Interner α) (i : Nat) : Option α :=
  (t.cell? i).map (·.value)

/-- The number linked after `i` in its bucket, 0 if there is none. -/
def next? (t : Interner α) (i : Nat) : Option Nat :=
  (t.cell? i).map (·.next)

/-- Stores a value under a new number without looking for it and without linking it to a
bucket. -/
def add (t : Interner α) (v : α) : Nat × Interner α :=
  let ⟨bits, cells, heads⟩ := t
  (cells.size + 1, ⟨bits, cells.push ⟨v, 0⟩, heads⟩)

def link (t : Interner α) (j i : Nat) : Interner α :=
  let ⟨bits, cells, heads⟩ := t
  ⟨bits, cells.modify (j - 1) fun c => { c with next := i }, heads⟩

/-- The numbers met on at most `fuel` links, from `i` on. -/
def linkedFrom (t : Interner α) : (fuel i : Nat) → List Nat
  | 0, _ => []
  | fuel + 1, i =>
    match t.next? i with
    | some j => i :: t.linkedFrom fuel j
    | none => []

variable [Keyed α]

/-- Number `i` is linked to the bucket of `v`, which is empty. -/
def start (t : Interner α) (v : α) (i : Nat) : Interner α :=
  let ⟨bits, cells, heads⟩ := t
  ⟨bits, cells, heads.setIfInBounds (lineOf bits v) i⟩

/-- The number linked first in the bucket of a value, 0 if there is none. -/
def first (t : Interner α) (v : α) : Nat :=
  t.heads.getD (lineOf t.bits v) 0

/-- The numbers in the bucket of a value, oldest first. No bucket has more links than there are
values. -/
def bucket (t : Interner α) (v : α) : List Nat :=
  t.linkedFrom t.size (t.first v)

/-- The number linked to the bucket of `v` that holds `v`. -/
def find? [DecidableEq α] (t : Interner α) (v : α) : Option Nat :=
  (t.bucket v).find? fun i => t.get? i = some v

/-- The number of a value, which is stored and linked behind its bucket if it is new. -/
def put [DecidableEq α] (t : Interner α) (v : α) : Nat × Interner α :=
  match t.find? v with
  | some i => (i, t)
  | none =>
    let last := (t.bucket v).getLast?
    let (i, t) := t.add v
    match last with
    | some j => (i, t.link j i)
    | none => (i, t.start v i)

end Interner

end RegularArithmetic.Store
