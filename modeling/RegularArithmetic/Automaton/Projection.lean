import RegularArithmetic.Diagram.Substitution
import RegularArithmetic.Automaton.ZeroPadding

/-!
Changing the propositions that an automaton reads: renaming them, changing the labels, and
quantifying propositions away.
-/

set_option autoImplicit false

namespace RegularArithmetic.Automaton

open Diagram (Edge)

/-- Reads proposition `ρ p` in place of every `p`, all at once. -/
def rename (a : Automaton) (ρ : Nat → Nat) : Diagram.M Automaton := do
  let states ← a.states.mapM fun s => do
    let moves ← s.moves.mapM fun m => return ⟨m.target, ← Diagram.rename ρ m.label⟩
    return { s with moves := moves.filter (·.label ≠ .zero) }
  Automaton.reduce ⟨states, a.props.image ρ⟩

/-- Changes every label; the result is made deterministic again. -/
def mapLabels (a : Automaton) (f : Edge → Diagram.M Edge) : Alphabet.M Automaton := do
  let changed (s : State) : Diagram.M State := do
    let moves ← s.moves.foldlM (fun acc m => do merge acc ⟨m.target, ← f m.label⟩) []
    return { s with moves }
  let states ← a.states.mapM fun s => liftM (changed s)
  Automaton.finish ⟨states, a.props⟩

/-- "For some values of the propositions", which may also be set beyond the end of the word. -/
def project (a : Automaton) (ps : NumberSet) : Alphabet.M Automaton := do
  if ps.isEmpty then return a
  let a ← a.mapLabels (Diagram.forSome · ps.toList)
  let a ← (← a.saturate).reduce
  return { a with props := a.props.diff ps }

end RegularArithmetic.Automaton
