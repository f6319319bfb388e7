import RegularArithmetic.Expression.Simplification
import RegularArithmetic.Program.Engine
import RegularArithmetic.Typing.Settling

/-!
Integer expressions. The value of an expression is an automaton about a result variable and the
variables of the expression; it is put together from the relations `adder`, `equal` and `less`
of the context.
-/

set_option autoImplicit false

namespace RegularArithmetic.Program

/-- A temporary operand is in the domain of the whole, a variable in its own. -/
def operandDomain (p : Program) (d : Domain) (v : Value) : Domain :=
  if v.temporary then d else p.domainOfVar v.var

/-- The same value as a new temporary variable. -/
def rebind (v : Value) : M Value := do
  let (name, p) ← temporary "c"
  let a ← v.automaton.rename fun q => if q = v.prop then p else q
  return ⟨a.withProps [p], name, p, true⟩

namespace Engine

variable (k : Engine)

/-- The value of a result variable that a relation ties to its operands. -/
def result (a : Automaton) (operands : List Value) (name : String) (p : Nat) : M Value := do
  let a ← combine a operands
  return ⟨a.withProps [p], name, p, true⟩

/-- The sum of two values. -/
def add (d : Domain) (x y : Value) : M Value := do
  let (name, p) ← temporary "t"
  let domain ← ask fun q => operandDomain q d
  let a ← k.relation "adder" [(x.var, domain x), (y.var, domain y), (name, d)]
  result a [x, y] name p

/-- The difference of two values, which has no value below zero. -/
def sub (d : Domain) (x y : Value) : M Value := do
  let (name, p) ← temporary "t"
  let domain ← ask fun q => operandDomain q d
  let a ← k.relation "adder" [(y.var, domain y), (name, d), (x.var, domain x)]
  result a [x, y] name p

/-- `acc` and `m` times `power`, by doubling; no `acc` counts as zero, and `m` is positive. -/
def multiple (d : Domain) (acc : Option Value) (power : Value) (m : Nat) : M Value := do
  let added : M Value :=
    match acc with
    | none => pure power
    | some a => k.add d a power
  if m ≤ 1 then added
  else
    let acc ← if m % 2 = 1 then some <$> added else pure acc
    let power ← k.add d power power
    multiple d acc power (m / 2)
termination_by m

/-- Zero is written with zeros only. -/
def zero (d : Domain) : M Value := do
  let (name, p) ← temporary "c"
  let a ← (Automaton.blank 1).setAccepting 0 true
  let a ← a.addMove 0 ⟨0, -(← (Alphabet.proposition p : Alphabet.M _))⟩
  let a := a.withProps [p]
  match d.instantiate? name with
  | none => return ⟨a, name, p, true⟩
  | some c => return ⟨← a.intersect (← k.call c), name, p, true⟩

/-- "`x` is the smallest value of the domain that is not zero", with `y` bound in it. -/
def isOne (d : Domain) (x y : String) : Expr :=
  let x' : Expr := ⟨.var x, some d⟩
  let y' : Expr := ⟨.var y, some d⟩
  let zero : Expr := ⟨.num 0, some d⟩
  let smaller := Expr.and (.not (.equal y' zero)) (.less y' x')
  let smallest := Expr.and (.not (.equal x' zero))
    (.not (.forSome y (d.instantiate? y) smaller))
  conjoin (d.instantiate? x).toList smallest

/-- One is the smallest value of its domain that is not zero. -/
def one (d : Domain) : M Value := do
  let (name, p) ← temporary "c"
  let y ← temporaryName "y"
  let a ← k.formula (isOne d name y)
  return ⟨a.withProps [p], name, p, true⟩

/-- A number in a domain. Twice its half if it is a power of two, and otherwise the sum of the
largest one below it and the rest; all these are remembered. -/
def constant (d : Domain) (n : Nat) : M Value := do
  match (← ask (·.constants)).lookup (n, d) with
  | some v => rebind v
  | none =>
    let v ←
      if n = 0 then k.zero d
      else if n = 1 then k.one d
      else if n = Nat.pow 2 n.log2 then do
        let v ← constant d (n / 2)
        k.add d v v
      else do
        let v ← constant d (Nat.pow 2 n.log2)
        let w ← constant d (n - Nat.pow 2 n.log2)
        k.add d v w
    change fun p => { p with constants := ((n, d), v) :: p.constants }
    return v
termination_by n
decreasing_by
  · omega
  · exact Nat.lt_of_le_of_ne (Nat.log2_self_le ‹_›) (Ne.symm ‹_›)
  · have : 0 < Nat.pow 2 n.log2 := Nat.two_pow_pos _
    omega

/-- A multiple of an expression. -/
def scale (d : Domain) (n : Nat) (x : Expr) : M Value := do
  if n = 0 then k.constant d 0
  else k.multiple d none (← k.value x) n

def evaluateValue (x : Expr) : M Value := do
  let d := (Domain.known? x.domain).getD .any
  if let some n := x.value? then return ← k.constant d n
  let wrong {α : Type} (reason : String) : M α := throw (.error (.arithmetic x.text reason))
  match x.form with
  | .var v =>
    let p ← propOf v
    return ⟨Automaton.universal.withProps [p], v, p, false⟩
  | .arith .add y z => do k.add d (← k.value y) (← k.value z)
  | .arith .sub y z => do k.sub d (← k.value y) (← k.value z)
  | .arith .mul y z =>
    match y.value?, z.value? with
    | some n, _ => k.scale d n z
    | _, some n => k.scale d n y
    | _, _ => wrong "multiplication needs a constant operand"
  | .arith .div _ _ => wrong "division needs constant operands with an exact quotient"
  | _ => wrong "formula used as an integer"

end Engine

end RegularArithmetic.Program
