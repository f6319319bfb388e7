import RegularArithmetic.Automaton.Exploration
import RegularArithmetic.Diagram.Paths

/-!
Relations between numbers in base 2. A number is written with its lowest digit first, digit `i`
in letter `i` of the word, and each argument has a proposition for its digits.
-/

set_option autoImplicit false

namespace RegularArithmetic

/-- An automaton with the propositions of its arguments, in order. -/
structure Relation where
  automaton : Automaton
  args : List Nat
  deriving DecidableEq

instance : Inhabited Relation := ⟨⟨.empty, []⟩⟩

namespace Binary

/-- The letters in which the propositions have the given digits. The literal of a proposition is its
number here, at any size of the registry: `Diagram.literalOf` differs from it only from 2 ^ 31 names
on. -/
def digits (ds : List (Nat × Bool)) : Diagram.M Diagram.Edge :=
  Diagram.cube (ds.map fun (p, d) => if d then (p : Int) else -p)

/-- One more column of `a + b = c`; state 1 stands for a carry. -/
def addColumn (a b c : Nat) (m : Automaton) (column : Bool × Bool × Bool) :
    Diagram.M Automaton := do
  let (carry, x, y) := column
  let sum := carry.toNat + x.toNat + y.toNat
  let label ← digits [(a, x), (b, y), (c, sum % 2 = 1)]
  m.addMove carry.toNat ⟨if 2 ≤ sum then 1 else 0, label⟩

def columns : List (Bool × Bool × Bool) :=
  [false, true].flatMap fun carry => [false, true].flatMap fun x => [false, true].map fun y =>
    (carry, x, y)

/-- `a + b = c`: no carry is left at the end. -/
def add : Alphabet.M Relation := do
  let a ← Alphabet.fresh "a"
  let b ← Alphabet.fresh "b"
  let c ← Alphabet.fresh "c"
  let m ← (Automaton.blank 2).setAccepting 0 true
  let m ← (columns.foldlM (addColumn a b c) m : Diagram.M Automaton)
  return ⟨← (m.withProps [a, b, c]).finish, [a, b, c]⟩

/-- `a = b`. -/
def equal : Alphabet.M Relation := do
  let a ← Alphabet.fresh "a"
  let b ← Alphabet.fresh "b"
  let m ← (Automaton.blank 1).setAccepting 0 true
  let same ← Diagram.iff (← Alphabet.proposition a) (← Alphabet.proposition b)
  let m ← m.addMove 0 ⟨0, same⟩
  return ⟨← (m.withProps [a, b]).finish, [a, b]⟩

/-- `a < b`: the highest differing digit decides, and it is read last. State 1 stands for a
lower `a` so far. -/
def less : Alphabet.M Relation := do
  let a ← Alphabet.fresh "a"
  let b ← Alphabet.fresh "b"
  let x ← Alphabet.proposition a
  let y ← Alphabet.proposition b
  let m ← (Automaton.blank 2).setAccepting 1 true
  let same ← Diagram.iff x y
  let below ← Diagram.conj (-x) y
  let above ← Diagram.conj x (-y)
  let m ← [0, 1].foldlM (fun m q => do
    let m ← m.addMove q ⟨q, same⟩
    let m ← m.addMove q ⟨1, below⟩
    m.addMove q ⟨0, above⟩) m
  return ⟨← (m.withProps [a, b]).finish, [a, b]⟩

/-- `a = 0`. -/
def zero : Alphabet.M Relation := do
  let a ← Alphabet.fresh "a"
  let m ← (Automaton.blank 1).setAccepting 0 true
  let m ← m.addMove 0 ⟨0, -(← Alphabet.proposition a)⟩
  return ⟨← (m.withProps [a]).finish, [a]⟩

end Binary

end RegularArithmetic
