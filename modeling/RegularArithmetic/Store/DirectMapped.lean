import RegularArithmetic.Failure
import RegularArithmetic.Store.Pairing

/-!
A direct-mapped table: every key has one line, and the newest entry of a line displaces the one
before. Looking a key up gives the value last inserted for it or nothing, never another key's.
-/

set_option autoImplicit false

namespace RegularArithmetic.Store

universe u v

/-- A table of `2 ^ bits` lines that counts how its look-ups went. -/
structure DirectMapped (κ : Type u) (ν : Type v) where
  bits : Nat
  lines : Array (Option (κ × ν))
  hits : Nat
  misses : Nat

namespace DirectMapped

variable {κ : Type u} {ν : Type v}

/-- An empty table of `2 ^ bits` lines. -/
def empty (bits : Nat) : DirectMapped κ ν :=
  ⟨bits, Array.replicate (Nat.pow 2 bits) none, 0, 0⟩

/-- An empty table, unless its line numbers would need more than 31 bits. -/
def empty? (bits : Nat) : Except Fault (DirectMapped κ ν) :=
  if bits ≤ 31 then .ok (empty bits) else .error .oversized

def clear (t : DirectMapped κ ν) : DirectMapped κ ν :=
  { t with lines := Array.replicate t.lines.size none }

variable [Keyed κ]

/-- The entry on the key's line, if it is the key's own. -/
def peek [DecidableEq κ] (t : DirectMapped κ ν) (k : κ) : Option ν :=
  match t.lines[lineOf t.bits k]? with
  | some (some (k', v)) => if k' = k then some v else none
  | _ => none

/-- A look-up, counted as a hit or as a miss. -/
def find [DecidableEq κ] (t : DirectMapped κ ν) (k : κ) : Option ν × DirectMapped κ ν :=
  match t.peek k with
  | some v => (some v, { t with hits := t.hits + 1 })
  | none => (none, { t with misses := t.misses + 1 })

/-- The entry takes its key's line, whatever stood there. -/
def insert (t : DirectMapped κ ν) (k : κ) (v : ν) : DirectMapped κ ν :=
  let line := lineOf t.bits k
  { t with lines := t.lines.setIfInBounds line (some (k, v)) }

end DirectMapped

end RegularArithmetic.Store
