import RegularArithmetic.Expression.Basic
import RegularArithmetic.Text.Printable

/-!
Expressions written out as trees, with every part named and every domain in its place.
-/

set_option autoImplicit false

namespace RegularArithmetic

def recordText (name : String) (fields : List (String × String)) : String :=
  let parts := fields.map fun (k, v) => s!"{k}: {v}"
  name ++ " \x7b " ++ ", ".intercalate parts ++ " \x7d"

def listText (parts : List String) : String := "[" ++ ", ".intercalate parts ++ "]"

def Operation.outline : Operation → String
  | add => "Add"
  | sub => "Sub"
  | mul => "Mul"
  | div => "Div"

def Comparison.outline : Comparison → String
  | equal => "Eq"
  | less => "Less"

def Literal.outline (l : Literal) : String :=
  let vars := l.vars.map fun (v, p) => s!"({Text.printable v}, Prop({p}))"
  recordText "AutomatonLiteral" [("name", Text.printable l.name),
    ("states", toString l.automaton.size), ("vars", listText vars)]

def rangeOutline (word start stop : String) : String :=
  recordText "Range" [("word", Text.printable word), ("start", start), ("end", stop)]

mutual

def Expr.outline : Expr → String
  | ⟨f, d⟩ => recordText "Node" [("kind", f.outline), ("ty", domainOutline d)]

def Form.outline : Form → String
  | .var v => s!"Var({Text.printable v})"
  | .num n => s!"Int({n})"
  | .truth b => if b then "Bool(true)" else "Bool(false)"
  | .arith op x y => s!"Arith({op.outline}, {x.outline}, {y.outline})"
  | .compare op x y => s!"Compare({op.outline}, {x.outline}, {y.outline})"
  | .and x y => s!"And({x.outline}, {y.outline})"
  | .or x y => s!"Or({x.outline}, {y.outline})"
  | .not x => s!"Not({x.outline})"
  | .forSome v g x => recordText "Exists" [("var", Text.printable v), ("guard", guardOutline g),
    ("body", x.outline)]
  | .call c => s!"Call({c.outline})"
  | .automaton l => s!"Automaton({l.outline})"
  | .index w i => recordText "Index" [("word", Text.printable w), ("index", i.outline)]
  | .rangeEq w s e u t f => recordText "RangeEq" [("left", rangeOutline w s.outline e.outline),
    ("right", rangeOutline u t.outline f.outline)]

def Call.outline : Call → String
  | ⟨n, xs⟩ => recordText "Call" [("name", Text.printable n), ("args", listText (outlineArgs xs))]

def outlineArgs : List Expr → List String
  | [] => []
  | x :: xs => x.outline :: outlineArgs xs

def guardOutline : Option Call → String
  | none => "None"
  | some c => s!"Some({c.outline})"

def domainOutline : Option Domain → String
  | none => "None"
  | some d => s!"Some({d.outline})"

def Domain.outline : Domain → String
  | .any => "Any"
  | .pending => "Inferred"
  | .restricted c => s!"Restriction({c.outline})"

end

end RegularArithmetic
