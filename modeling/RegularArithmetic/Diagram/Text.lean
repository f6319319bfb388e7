import RegularArithmetic.Diagram.Paths

/-!
Diagrams as text: nested brackets that follow the nodes, and the disjunction of the cubes.
-/

set_option autoImplicit false

namespace RegularArithmetic.Diagram.Store

/-- The nodes below `e`, each with its variable, its high edge and its low edge. -/
def brackets (s : Store) (e : Edge) : Except Fault String := do
  if e = .zero then return "(0)"
  if e = .one then return "(1)"
  let n ← s.branch e
  let high ← s.brackets n.high
  let low ← s.brackets n.low
  return s!"{e.text}:(x{n.var}, {high}, {low})"
termination_by e.index
decreasing_by
  · exact n.high_lt
  · exact n.low_lt

/-- How a disjunction of cubes is written. -/
structure CubeStyle where
  literal : Nat → Bool → Except Fault String
  conjunction : String
  disjunction : String

/-- The cubes of `e`, in brackets if there are several; the constants are `t` and `f`. -/
def disjunction (s : Store) (style : CubeStyle) (e : Edge) : Except Fault String := do
  if e = .zero then return "f"
  let cubes ← s.cubes e
  if cubes.any List.isEmpty then return "t"
  let terms ← cubes.mapM fun cube => do
    let literals ← cube.mapM fun l => style.literal l.natAbs (0 < l)
    return style.conjunction.intercalate literals
  match terms with
  | [term] => return term
  | _ => return style.disjunction.intercalate (terms.map fun term => s!"({term})")

end RegularArithmetic.Diagram.Store
