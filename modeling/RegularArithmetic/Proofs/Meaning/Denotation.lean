import Mathlib.Logic.Function.Basic
import RegularArithmetic.Expression.Simplification
import RegularArithmetic.Proofs.Meaning.Operand
import RegularArithmetic.Typing.Restrictions
import RegularArithmetic.Typing.Settling

/-!
What formulas say, given the numbers that their variables stand for and the length of the word
that these are written in.
-/

set_option autoImplicit false

namespace RegularArithmetic

/-- The numbers that the variables stand for. -/
abbrev Valuation := String → Nat

/-- What is asked of the values of a quantified variable. -/
abbrev Bounds := String → Nat → Valuation → Prop

/-- One more demand on the values of `v`. -/
def Bounds.restrict (B : Bounds) (v : String) (P : Nat → Valuation → Prop) : Bounds :=
  fun u n τ => B u n τ ∧ (u = v → P n τ)

namespace Comparison

/-- The relation of the context that a comparison asks for. -/
def relation : Comparison → String
  | equal => "equal"
  | less => "less"

end Comparison

open Operand (Joined Related known)

variable (I : Interpretation)

/-- What the domain of all numbers means. -/
def Interpretation.anything : Sense := ⟨fun _ _ => True, I.known .any⟩

/-- "The ranges have a common length, and agree at each place below it", where `length` and
`length'` are the lengths and `at_` and `at_'` say what holds at a place. -/
def RangesAgree (length length' : Operand) (holds holds' : Nat → Nat → Prop) (n : Nat) : Prop :=
  ∃ m ≥ n, ∃ a < 2 ^ m,
    (Related I "equal" (known a) length m ∧ Related I "equal" (known a) length' m) ∧
    ¬∃ k ≥ m, ∃ i < 2 ^ k, ¬(¬Related I "less" (known i) (known a) k ∨ (holds i k ↔ holds' i k))

mutual

/-- The numbers that an integer expression may stand for. -/
def Expr.operand : Expr → Valuation → Operand
  | ⟨f, d⟩, τ => f.operand ⟨containsOf d, I.known ((Domain.known? d).getD .any)⟩ τ

def Form.operand (D : Sense) : Form → Valuation → Operand
  | .var v, τ => known (τ v)
  | .num n, _ => .constant I D n
  | .arith op x y, τ =>
    .arith I D op (Form.arith op x y).value? x.value? y.value? (x.operand τ) (y.operand τ)
  | _, _ => .undefined

/-- The numbers that the arguments of a call may stand for. -/
def operands : List Expr → Valuation → List Operand
  | [], _ => []
  | x :: xs, τ => x.operand τ :: operands xs τ

/-- What a call says. -/
def Call.Holds : Call → Nat → Valuation → Prop
  | ⟨name, xs⟩, n, τ => Joined (operands xs τ) (I.holds name) n

def Domain.Contains : Domain → Nat → Nat → Prop
  | .restricted c, n, a => c.Holds n (Function.update (fun _ => 0) selfName a)
  | _, _, _ => True

/-- The number is in the domain of the annotation, if there is one. -/
def containsOf : Option Domain → Nat → Nat → Prop
  | some d, n, a => d.Contains n a
  | none, _, _ => True

end

def Domain.sense (d : Domain) : Sense := ⟨d.Contains I, I.known d⟩

def GuardHolds (g : Option Call) (n : Nat) (τ : Valuation) : Prop := ∀ c ∈ g, c.Holds I n τ

/-- What is visible of the restrictions. -/
def Restrictions.bounds (r : Restrictions) : Bounds :=
  fun v n τ => ∀ c ∈ r.visible v, c.Holds I n τ

mutual

/-- What a formula says, under demands on the values of quantified variables. -/
def Expr.Holds : Expr → Bounds → Nat → Valuation → Prop
  | ⟨f, _⟩, B, n, τ => f.Holds B n τ

def Form.Holds : Form → Bounds → Nat → Valuation → Prop
  | .truth b, _, _, _ => b = true
  | .and x y, B, n, τ => x.Holds B n τ ∧ y.Holds B n τ
  | .or x y, B, n, τ => x.Holds B n τ ∨ y.Holds B n τ
  | .not x, B, n, τ => ¬x.Holds B n τ
  | .forSome v g x, B, n, τ => ∃ m ≥ n, ∃ a < 2 ^ m,
    GuardHolds I g m (Function.update τ v a) ∧ B v m (Function.update τ v a) ∧
      x.Holds (B.restrict v (GuardHolds I g)) m (Function.update τ v a)
  | .call c, _, n, τ => c.Holds I n τ
  | .automaton l, _, n, τ => I.literal l n (l.vars.map fun (v, _) => τ v)
  | .index w i, _, n, τ => Joined [i.operand I τ] (I.holds w) n
  | .rangeEq w s e u t f, _, n, τ =>
    RangesAgree I
      (.arith I I.anything .sub (Form.arith .sub e s).value? e.value? s.value?
        (e.operand I τ) (s.operand I τ))
      (.arith I I.anything .sub (Form.arith .sub f t).value? f.value? t.value?
        (f.operand I τ) (t.operand I τ))
      (fun i => Joined [.sum I (s.operand I τ) (known i)] (I.holds w))
      (fun i => Joined [.sum I (t.operand I τ) (known i)] (I.holds u)) n
  | .compare op x y, B, n, τ =>
    match op, x.isFormula, y.isFormula with
    | op, false, false => Related I op.relation (x.operand I τ) (y.operand I τ) n
    | .equal, true, true => x.Holds B n τ ↔ y.Holds B n τ
    | _, _, _ => False
  | .var _, _, _, _ => False
  | .num _, _, _, _ => False
  | .arith .., _, _, _ => False

end

end RegularArithmetic
