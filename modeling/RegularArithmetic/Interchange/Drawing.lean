import RegularArithmetic.Automaton.Basic
import RegularArithmetic.Diagram.Text
import RegularArithmetic.Text.Quoted

/-!
Automata as they are shown: labels with the names of the propositions, drawings in the language
of graph layout programs, and a one-line summary.
-/

set_option autoImplicit false

namespace RegularArithmetic

namespace Alphabet

/-- Literals are the names of the propositions, a negated one with `!` before it. -/
def nameStyle (x : Alphabet) : Diagram.Store.CubeStyle where
  literal v b := do
    let name ← x.nameOf v
    return if b then name else s!"!{name}"
  conjunction := " & "
  disjunction := " | "

def labelText (x : Alphabet) (label : Diagram.Edge) : Except Fault String :=
  x.diagrams.disjunction x.nameStyle label

end Alphabet

/-- The shapes of the states, and whether the drawing runs from left to right. -/
structure Drawing where
  plain : String
  accepting : String
  horizontal : Bool
  deriving DecidableEq, Repr

namespace Drawing

def usual : Drawing := ⟨"circle", "doublecircle", true⟩

/-- The drawing of an automaton; an invisible point leads to the initial state. -/
def draw (d : Drawing) (x : Alphabet) (a : Automaton) : Except Fault String := do
  let states := a.states.toList.zipIdx.map fun (s, q) =>
    let shape := if s.accepting then d.accepting else d.plain
    s!"{q} [shape={shape}, label=\"{q}\"];"
  let moves ← a.allMoves.mapM fun (q, m) => do
    return s!"{q} -> {m.target} [label=\"{Text.escaped (← x.labelText m.label)}\"];"
  let lines := ["digraph \x7b"] ++ (if d.horizontal then ["rankdir=LR;"] else []) ++
    ["init [shape=point, style=invis];"] ++ states ++ ["init -> 0;"] ++ moves ++ ["\x7d"]
  return String.join (lines.map (· ++ "\n"))

end Drawing

/-- How many states and moves an automaton has, and which propositions. -/
def Automaton.summary (a : Automaton) : String :=
  let props := ", ".intercalate (a.props.toList.map fun p => s!"Prop({p})")
  s!"Automaton \x7b states: {a.size}, edges: {a.moveCount}, props: \x7b{props}\x7d \x7d"

end RegularArithmetic
