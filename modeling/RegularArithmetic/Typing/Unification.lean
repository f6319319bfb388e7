import RegularArithmetic.Expression.Domain
import RegularArithmetic.Truth

/-!
The common domain of two values. Of two restrictions the tighter one is taken, if one implies
the other; whether it does is a formula, which is put to an oracle.
-/

set_option autoImplicit false

namespace RegularArithmetic

/-- The name of the value that questions about domains are asked of. -/
def probeName : String := "__v"

namespace Domain

/-- "The value is in the domain", unless that is true of all values. -/
def probe? (d : Domain) : Option Expr := (d.instantiate? probeName).map Call.toExpr

section

variable {σ : Type} (truth : Expr → EStateM Failure σ Truth)

def isTrue (x : Expr) : EStateM Failure σ Bool := return (← truth x) = .always

/-- Whether all values of the one domain are values of the other. -/
def implies (a b : Domain) : EStateM Failure σ Bool :=
  match a.probe?, b.probe? with
  | _, none => pure true
  | none, some y => isTrue truth y
  | some x, some y => isTrue truth (.or (.not x) y)

/-- The tighter one of two domains. A restriction joins the domain of all values only if it
restricts nothing. -/
def unify (a b : Domain) : EStateM Failure σ Domain := do
  match a, b with
  | .pending, d => return d
  | d, .pending => return d
  | .any, .any => return .any
  | .any, .restricted c =>
    if ← implies truth .any (.restricted c) then return .restricted c
  | .restricted c, .any =>
    if ← implies truth .any (.restricted c) then return .restricted c
  | .restricted c, .restricted d =>
    if c = d then return a
    let inner ← implies truth a b
    let outer ← implies truth b a
    if inner then return a
    if outer then return b
  throw (.error (.unification a.text b.text))

end

end Domain

end RegularArithmetic
