import RegularArithmetic.Expression.Connectives

/-!
Simplifying expressions: arithmetic on constants is carried out, and the connectives lose
constant and repeated operands and double negations. Guards are left alone.
-/

set_option autoImplicit false

namespace RegularArithmetic

/-- The result of an operation on numbers below `2 ^ 64`, if it is such a number again. -/
def Operation.apply? (op : Operation) (m n : Nat) : Option Nat :=
  match op with
  | add => if m + n < Nat.pow 2 64 then some (m + n) else none
  | sub => if n ≤ m then some (m - n) else none
  | mul => if m * n < Nat.pow 2 64 then some (m * n) else none
  | div => if n ≠ 0 ∧ m % n = 0 then some (m / n) else none

mutual

/-- The value of an expression without variables. -/
def Expr.value? : Expr → Option Nat
  | ⟨f, _⟩ => f.value?

def Form.value? : Form → Option Nat
  | .num n => some n
  | .arith op x y => do op.apply? (← x.value?) (← y.value?)
  | _ => none

end

def simplerAnd? (x y : Expr) : Option Expr :=
  match x.form, y.form with
  | .truth false, _ => some (.truth false)
  | _, .truth false => some (.truth false)
  | .truth true, _ => some y
  | _, .truth true => some x
  | _, _ => if x = y then some x else none

def simplerOr? (x y : Expr) : Option Expr :=
  match x.form, y.form with
  | .truth true, _ => some (.truth true)
  | _, .truth true => some (.truth true)
  | .truth false, _ => some y
  | _, .truth false => some x
  | _, _ => if x = y then some x else none

/-- A simpler expression with the same meaning, by one step at the root. -/
def Expr.simpler? (x : Expr) : Option Expr :=
  match x.form with
  | .arith .. => x.value?.map fun n => ⟨.num n, x.domain⟩
  | .not y =>
    match y.form with
    | .not z => some z
    | .truth b => some (.truth (!b))
    | _ => none
  | .and y z => simplerAnd? y z
  | .or y z => simplerOr? y z
  | _ => none

/-- Takes the step at the root, if there is one, and counts it. -/
def Expr.step (x : Expr) : StateM Nat Expr :=
  match x.simpler? with
  | some y => do
    modify (· + 1)
    return y
  | none => return x

mutual

/-- Simplifies the parts first; the state counts the steps. -/
def Expr.simplify : Expr → StateM Nat Expr
  | ⟨f, d⟩ => do Expr.step ⟨← f.simplify, d⟩

def Form.simplify : Form → StateM Nat Form
  | .arith op x y => return .arith op (← x.simplify) (← y.simplify)
  | .compare op x y => return .compare op (← x.simplify) (← y.simplify)
  | .and x y => return .and (← x.simplify) (← y.simplify)
  | .or x y => return .or (← x.simplify) (← y.simplify)
  | .not x => return .not (← x.simplify)
  | .forSome v g x => return .forSome v g (← x.simplify)
  | .call c => return .call (← c.simplify)
  | .index w i => return .index w (← i.simplify)
  | .rangeEq w s e u t f =>
    return .rangeEq w (← s.simplify) (← e.simplify) u (← t.simplify) (← f.simplify)
  | .var v => return .var v
  | .num n => return .num n
  | .truth b => return .truth b
  | .automaton l => return .automaton l

def Call.simplify : Call → StateM Nat Call
  | ⟨n, xs⟩ => return ⟨n, ← simplifyArgs xs⟩

def simplifyArgs : List Expr → StateM Nat (List Expr)
  | [] => return []
  | x :: xs => return (← x.simplify) :: (← simplifyArgs xs)

end

end RegularArithmetic
