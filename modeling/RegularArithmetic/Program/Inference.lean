import RegularArithmetic.Program.Basic
import RegularArithmetic.Typing.Settling
import RegularArithmetic.Typing.Unification

/-!
Finding the domains of an expression. A variable has the domain of its restrictions, and the
operands of arithmetic and of comparisons share one domain.
-/

set_option autoImplicit false

namespace RegularArithmetic.Program

section

variable (truth : Expr → M Truth)

def commonDomain (x y : Expr) : M Domain :=
  Domain.unify truth x.stated y.stated

/-- The domain of arithmetic with the stated domain over operands of a domain. -/
def arithmeticDomain (stated : Option Domain) (operands : Domain) : M Domain :=
  match Domain.known? stated with
  | some d => Domain.unify truth d operands
  | none => pure operands

mutual

def inferExpr : Expr → M Expr
  | ⟨f, d⟩ => inferForm d f

def inferForm (d : Option Domain) : Form → M Expr
  | .var v =>
    match Domain.known? d with
    | some d => return ⟨.var v, some d⟩
    | none => do
      let r ← ask (·.restrictions)
      return ⟨.var v, some (← r.domainOf v)⟩
  | .num n => return ⟨.num n, some (d.getD .pending)⟩
  | .truth b => return ⟨.truth b, d⟩
  | .automaton l => return ⟨.automaton l, d⟩
  | .arith op x y => do
    let x ← inferExpr x
    let y ← inferExpr y
    let e ← arithmeticDomain truth d (← commonDomain truth x y)
    return ⟨.arith op (x.settle e) (y.settle e), some e⟩
  | .compare op x y => do
    let formulas := x.isFormula || y.isFormula
    let x ← inferExpr x
    let y ← inferExpr y
    if formulas then return ⟨.compare op x y, d⟩
    else
      let e ← commonDomain truth x y
      return ⟨.compare op (x.settle e) (y.settle e), d⟩
  | .and x y => return ⟨.and (← inferExpr x) (← inferExpr y), d⟩
  | .or x y => return ⟨.or (← inferExpr x) (← inferExpr y), d⟩
  | .not x => return ⟨.not (← inferExpr x), d⟩
  | .forSome v g x =>
    withScope [] do
      if let some c := g then restrictBy (·.restrict v c)
      return ⟨.forSome v g (← inferExpr x), d⟩
  | .call c => return ⟨.call (← inferCall c), d⟩
  | .index w i => return ⟨.index w (← inferExpr i), d⟩
  | .rangeEq w s e u t f => do
    let s ← inferExpr s
    let e ← inferExpr e
    let t ← inferExpr t
    let f ← inferExpr f
    return ⟨.rangeEq w s e u t f, d⟩

def inferCall : Call → M Call
  | ⟨n, xs⟩ => return ⟨n, ← inferArgs xs⟩

def inferArgs : List Expr → M (List Expr)
  | [] => return []
  | x :: xs => do
    let x ← inferExpr x
    return x :: (← inferArgs xs)

end

/-- Finds the domains of all parts; those that stay open are all numbers. -/
def infer (x : Expr) : M Expr := return (← inferExpr truth x).close

end

end RegularArithmetic.Program
