/-!
What holds of a formula as a whole: it can be true of all values of its variables, of none, or
of some only.
-/

set_option autoImplicit false

namespace RegularArithmetic

inductive Truth where
  | always | never | sometimes
  deriving DecidableEq, Repr, Inhabited

namespace Truth

def text : Truth → String
  | always => "true"
  | never => "false"
  | sometimes => "sometimes"

end Truth

end RegularArithmetic
