import RegularArithmetic.Expression.Basic

/-!
Filling in the domains of an expression once they are known.
-/

set_option autoImplicit false

namespace RegularArithmetic

namespace Domain

/-- The domain of an annotation, if it says one. -/
def known? : Option Domain → Option Domain
  | some .pending => none
  | d => d

end Domain

namespace Expr

/-- The domain as it stands, still to be found out if there is none. -/
def stated (x : Expr) : Domain := x.domain.getD .pending

end Expr

mutual

/-- Gives a domain to an integer expression that has none, and to its operands. -/
def Expr.settle (d : Domain) : Expr → Expr
  | ⟨f, e⟩ =>
    match Domain.known? e with
    | none => ⟨f.settle d, some d⟩
    | some _ => ⟨f, e⟩

def Form.settle (d : Domain) : Form → Form
  | .arith op x y => .arith op (x.settle d) (y.settle d)
  | f => f

end

mutual

/-- Every domain that was not found out is all numbers. -/
def Expr.close : Expr → Expr
  | ⟨f, some .pending⟩ => ⟨f.close, some .any⟩
  | ⟨f, d⟩ => ⟨f.close, d⟩

def Form.close : Form → Form
  | .arith op x y => .arith op x.close y.close
  | .compare op x y => .compare op x.close y.close
  | .and x y => .and x.close y.close
  | .or x y => .or x.close y.close
  | .not x => .not x.close
  | .forSome v g x => .forSome v g x.close
  | .call c => .call c.close
  | .index w i => .index w i.close
  | .rangeEq w s e u t f => .rangeEq w s.close e.close u t.close f.close
  | .var v => .var v
  | .num n => .num n
  | .truth b => .truth b
  | .automaton l => .automaton l

def Call.close : Call → Call
  | ⟨n, xs⟩ => ⟨n, closeArgs xs⟩

def closeArgs : List Expr → List Expr
  | [] => []
  | x :: xs => x.close :: closeArgs xs

end

end RegularArithmetic
