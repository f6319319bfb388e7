import RegularArithmetic.Automaton.Basic
import RegularArithmetic.Diagram.Text
import RegularArithmetic.Text.Quoted

/-!
Writing automata in the Hanoi format. The propositions are numbered from 0 in the order in which
they are listed, each with a quoted name.
-/

set_option autoImplicit false

namespace RegularArithmetic

/-- A name without the mark and number that make it new, if something precedes them. -/
def baseName (name : String) : String :=
  match name.toList.span (· ≠ '#') with
  | ([], _) => name
  | (base, _) => String.ofList base

/-- The place of a proposition in a list, the last one if it is listed twice. -/
def placeOf? (props : List (Nat × String)) (p : Nat) : Option Nat :=
  (props.zipIdx.reverse.find? (·.1.1 = p)).map (·.2)

/-- Literals are places in the list; a proposition that is not listed stands after a question
mark. -/
def placeStyle (props : List (Nat × String)) : Diagram.Store.CubeStyle where
  literal v b :=
    let place := match placeOf? props v with
      | some i => toString i
      | none => s!"?{v}"
    .ok (if b then place else s!"!{place}")
  conjunction := "&"
  disjunction := " | "

namespace Automaton

def stateText (s : Diagram.Store) (props : List (Nat × String)) (q : Nat) (state : State) :
    Except Fault (List String) := do
  let mark := if state.accepting then " \x7b0\x7d" else ""
  let moves ← state.moves.mapM fun m => do
    return s!"[{← s.disjunction (placeStyle props) m.label}] {m.target}"
  return s!"State: {q}{mark}" :: moves

/-- The text of an automaton with the given propositions and names. -/
def text (a : Automaton) (s : Diagram.Store) (props : List (Nat × String)) :
    Except Fault String := do
  let names := props.map fun (_, name) => " " ++ Text.quoted name
  let body ← a.states.toList.zipIdx.mapM fun (state, q) => stateText s props q state
  let lines := [
    "HOA: v1",
    s!"States: {a.size}",
    "Start: 0",
    s!"AP: {props.length}{String.join names}",
    "acc-name: Buchi",
    "Acceptance: 1 Inf(0)",
    "properties: trans-labels explicit-labels state-acc deterministic",
    "--BODY--"] ++ body.flatten ++ ["--END--"]
  return String.join (lines.map (· ++ "\n"))

end Automaton

/-- The text of an automaton with its own propositions, named as in the alphabet. -/
def Alphabet.automatonText (x : Alphabet) (a : Automaton) : Except Fault String := do
  let props ← a.props.toList.mapM fun p => return (p, baseName (← x.nameOf p))
  a.text x.diagrams props

end RegularArithmetic
