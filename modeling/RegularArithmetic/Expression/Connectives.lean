import RegularArithmetic.Expression.Basic

/-!
Expressions without a domain from their parts, among them the connectives that are short for
others.
-/

set_option autoImplicit false

namespace RegularArithmetic

/-- An expression whose domain is not known. -/
def Form.plain (f : Form) : Expr := ⟨f, none⟩

namespace Expr

def var (name : String) : Expr := (Form.var name).plain

def num (n : Nat) : Expr := (Form.num n).plain

def truth (b : Bool) : Expr := (Form.truth b).plain

def arith (op : Operation) (x y : Expr) : Expr := (Form.arith op x y).plain

def equal (x y : Expr) : Expr := (Form.compare .equal x y).plain

def less (x y : Expr) : Expr := (Form.compare .less x y).plain

def and (x y : Expr) : Expr := (Form.and x y).plain

def or (x y : Expr) : Expr := (Form.or x y).plain

def not (x : Expr) : Expr := (Form.not x).plain

def implies (x y : Expr) : Expr := or (not x) y

def atMost (x y : Expr) : Expr := or (less x y) (equal x y)

def greater (x y : Expr) : Expr := less y x

def atLeast (x y : Expr) : Expr := atMost y x

def differ (x y : Expr) : Expr := not (equal x y)

def forSome (v : String) (guard : Option Call) (body : Expr) : Expr :=
  (Form.forSome v guard body).plain

def forAll (v : String) (guard : Option Call) (body : Expr) : Expr :=
  not (forSome v guard (not body))

def index (word : String) (i : Expr) : Expr := (Form.index word i).plain

def automaton (l : Literal) : Expr := (Form.automaton l).plain

end Expr

def Call.toExpr (c : Call) : Expr := (Form.call c).plain

end RegularArithmetic
