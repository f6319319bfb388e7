import RegularArithmetic.Automaton.Boolean

/-!
Several alphabets side by side. An automaton only makes sense together with the alphabet whose
propositions and diagrams its labels are, and two automata can be joined only over the same one.
-/

set_option autoImplicit false

namespace RegularArithmetic

/-- An automaton with the number of its alphabet. -/
structure Owned where
  owner : Nat
  automaton : Automaton
  deriving DecidableEq

/-- The alphabets by their numbers. -/
structure Alphabets where
  all : Array Alphabet

namespace Alphabets

/-- A computation over several alphabets. -/
abbrev M := EStateM Failure Alphabets

/-- Computes over the alphabet with the given number. -/
def within {α : Type} (i : Nat) (x : Alphabet.M α) : M α := fun ⟨all⟩ =>
  match all[i]? with
  | none => .error (.fault .foreignAlphabet) ⟨all⟩
  | some a =>
    let all := all.setIfInBounds i default
    match x a with
    | .ok r a => .ok r ⟨all.setIfInBounds i a⟩
    | .error e a => .error e ⟨all.setIfInBounds i a⟩

/-- A further alphabet, by its number. -/
def add (a : Alphabet) : M Nat := fun ⟨all⟩ =>
  .ok all.size ⟨all.push a⟩

/-- Computes with an automaton over its own alphabet. -/
def on {α : Type} (o : Owned) (f : Automaton → Alphabet.M α) : M α :=
  within o.owner (f o.automaton)

/-- Computes with two automata over their common alphabet. -/
def onBoth {α : Type} (o p : Owned) (f : Automaton → Automaton → Alphabet.M α) : M α := do
  if o.owner ≠ p.owner then throw (.fault .foreignAlphabet)
  within o.owner (f o.automaton p.automaton)

end Alphabets

end RegularArithmetic
