import RegularArithmetic.Expression.Basic

/-!
The wording of expressions. Sums, conjunctions and quantifiers stand in brackets; comparisons do
not, so that not every wording has only one reading. Domains of parts are left out.
-/

set_option autoImplicit false

namespace RegularArithmetic

def Operation.text : Operation → String
  | add => "+"
  | sub => "-"
  | mul => "*"
  | div => "/"

def Comparison.text : Comparison → String
  | equal => "="
  | less => "<"

mutual

def Expr.text : Expr → String
  | ⟨f, _⟩ => f.text

def Form.text : Form → String
  | .var a => a
  | .num n => toString n
  | .truth b => if b then "true" else "false"
  | .arith op x y => s!"({x.text} {op.text} {y.text})"
  | .compare op x y => s!"{x.text} {op.text} {y.text}"
  | .and x y => s!"({x.text} & {y.text})"
  | .or x y => s!"({x.text} | {y.text})"
  | .not x => s!"!{x.text}"
  | .forSome v g x => s!"(exists {v}{guardText g}. {x.text})"
  | .call c => c.text
  | .automaton l => s!"<automaton {l.name}>"
  | .index w i => s!"{w}[{i.text}]"
  | .rangeEq w s e u t f => s!"{w}[{s.text}..{e.text}] = {u}[{t.text}..{f.text}]"

def Call.text : Call → String
  | ⟨n, []⟩ => s!"{n}()"
  | ⟨n, x :: xs⟩ => s!"{n}({x.text}{restText xs})"

def restText : List Expr → String
  | [] => ""
  | x :: xs => s!", {x.text}{restText xs}"

def guardText : Option Call → String
  | none => ""
  | some c => s!": {c.text}"

end

def Domain.text : Domain → String
  | .any => "any"
  | .pending => "?"
  | .restricted c => c.text

end RegularArithmetic
