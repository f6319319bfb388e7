import RegularArithmetic.Automaton.Exploration
import RegularArithmetic.Truth

/-!
Union and complement of deterministic automata, and the questions that they answer.
-/

set_option autoImplicit false

namespace RegularArithmetic

open Diagram (Edge)

def State.uncovered (s : State) : Diagram.M Edge := do
  return -(← Diagram.disjAll (s.moves.map (·.label)))

/-- One more move, on the given letters, unless there are none. -/
def State.orElse (s : State) (label : Edge) (sink : Nat) : State :=
  if label = .zero then s else { s with moves := s.moves ++ [⟨sink, label⟩] }

namespace Automaton

/-- The same language with a move for every letter: those that lack one lead to a rejecting
state, which is added only if there are some. -/
def complete (a : Automaton) : Diagram.M Automaton := do
  let missing : List Edge ← a.states.toList.mapM State.uncovered
  if missing.all (· = .zero) then return a
  let states := a.states.toList.zipWith (fun s label => s.orElse label a.size) missing
  return { a with states := states.toArray.push ⟨false, [⟨a.size, .one⟩]⟩ }

def union (a b : Automaton) : Alphabet.M Automaton := do
  let a ← a.complete
  let b ← b.complete
  a.product b (· || ·)

def complement (a : Automaton) : Diagram.M Automaton := do
  let a ← a.complete
  let states := a.states.map fun s => { s with accepting := !s.accepting }
  { a with states }.reduce

def isUniversal (a : Automaton) : Diagram.M Bool := do
  (← a.complement).isEmpty

def isEquivalent (a b : Automaton) : Alphabet.M Bool := do
  let onlyLeft ← a.intersect (← b.complement)
  if ← onlyLeft.isEmpty then
    let onlyRight ← b.intersect (← a.complement)
    onlyRight.isEmpty
  else return false

/-- Whether all words, none, or only some are accepted. -/
def truth (a : Automaton) : Diagram.M Truth := do
  if ← a.isEmpty then return .never
  if ← a.isUniversal then return .always
  return .sometimes

end Automaton

end RegularArithmetic
