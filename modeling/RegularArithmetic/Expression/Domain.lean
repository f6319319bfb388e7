import RegularArithmetic.Failure
import RegularArithmetic.Expression.Connectives
import RegularArithmetic.Expression.Substitution
import RegularArithmetic.Expression.Text

/-!
Domains given by a call. The call is about its first argument, which the domain writes as
`__self`, so that the domain does not depend on the name of the variable that it constrains.
-/

set_option autoImplicit false

namespace RegularArithmetic

/-- The name of the constrained variable inside a domain. -/
def selfName : String := "__self"

def reservedStart : String := "__"

def Call.isAbout (c : Call) (v : String) : Bool :=
  match c.args with
  | ⟨.var w, _⟩ :: _ => w = v
  | _ => false

/-- Fails unless the call is about `v`. -/
def Call.requireAbout (c : Call) (v : String) : Except Error Unit :=
  if c.isAbout v then .ok () else .error (.malformedRestriction v c.text)

namespace Domain

/-- The domain of `v` as the call constrains it. -/
def restriction (v : String) (c : Call) : Except Error Domain := do
  c.requireAbout v
  return .restricted (c.subst v selfName)

/-- The call that says of `v` that it is in the domain. -/
def instantiate? (v : String) : Domain → Option Call
  | .restricted c => some (c.subst selfName v)
  | _ => none

end Domain

end RegularArithmetic
