/-!
Square-shell pairing on 64-bit words, and the class of values that it spreads over the lines of
a table. Two arguments below `2 ^ 32` are paired without wrapping; beyond that the result is
only a hash.
-/

set_option autoImplicit false

namespace RegularArithmetic.Store

/-- The pairs are counted along the shells of the squares, `(0, b) … (b - 1, b)` before
`(b, 0) … (b, b)`. -/
def pair (a b : UInt64) : UInt64 :=
  if a < b then b * b + a else a * a + a + b

/-- Three words are paired from the left. -/
def pairThree (a b c : UInt64) : UInt64 :=
  pair (pair a b) c

universe u

/-- Values with a number that chooses their line in a table. -/
class Keyed (α : Type u) where
  key : α → UInt64

export Keyed (key)

instance : Keyed UInt64 := ⟨id⟩

instance : Keyed (UInt64 × UInt64) := ⟨fun v => pair v.1 v.2⟩

instance : Keyed (UInt64 × UInt64 × UInt64) := ⟨fun v => pairThree v.1 v.2.1 v.2.2⟩

/-- The line of a value in a table of `2 ^ bits` lines: the lowest bits of its key. -/
def lineOf {α : Type u} [Keyed α] (bits : Nat) (v : α) : Nat :=
  (key v &&& (UInt64.ofNat (Nat.pow 2 bits - 1))).toNat

end RegularArithmetic.Store
