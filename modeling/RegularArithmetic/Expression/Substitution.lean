import RegularArithmetic.Expression.Basic

/-!
Putting one variable name for another. Bound occurrences stay, and so do domains and the
variables of automaton literals; a name put into the scope of a quantifier over it is captured.
-/

set_option autoImplicit false

namespace RegularArithmetic

def substName (a b v : String) : String := if v = a then b else v

mutual

/-- Replaces the free occurrences of the variable `a` by `b`. -/
def Expr.subst (a b : String) : Expr → Expr
  | ⟨f, d⟩ => ⟨f.subst a b, d⟩

def Form.subst (a b : String) : Form → Form
  | .var v => .var (substName a b v)
  | .num n => .num n
  | .truth t => .truth t
  | .arith op x y => .arith op (x.subst a b) (y.subst a b)
  | .compare op x y => .compare op (x.subst a b) (y.subst a b)
  | .and x y => .and (x.subst a b) (y.subst a b)
  | .or x y => .or (x.subst a b) (y.subst a b)
  | .not x => .not (x.subst a b)
  | .forSome v g x => if v = a then .forSome v g x else .forSome v (substGuard a b g) (x.subst a b)
  | .call c => .call (c.subst a b)
  | .automaton l => .automaton l
  | .index w i => .index (substName a b w) (i.subst a b)
  | .rangeEq w s e u t f =>
    .rangeEq (substName a b w) (s.subst a b) (e.subst a b) (substName a b u) (t.subst a b)
      (f.subst a b)

def Call.subst (a b : String) : Call → Call
  | ⟨n, xs⟩ => ⟨n, substArgs a b xs⟩

def substArgs (a b : String) : List Expr → List Expr
  | [] => []
  | x :: xs => x.subst a b :: substArgs a b xs

def substGuard (a b : String) : Option Call → Option Call
  | none => none
  | some c => some (c.subst a b)

end

end RegularArithmetic
